import Lithium.Lib.Transition
import Lithium.Script.Interpreter

/-!
# The stack of conditions in two words

`ConditionStack` keeps the size of a stack of booleans and the position of its first
false one, in 32 bits each, with the largest number for "no false one". This agrees
with a plain vector of booleans as long as its size is below `2 ^ 32`.
-/

namespace Lithium
open List

inductive ConditionCall
  | pushBack (f : Bool)
  | popBack
  | toggleTop

/-- A plain vector of booleans; the last two calls need an element. -/
def conditionVector (l : List Bool) : ConditionCall → Option (List Bool)
  | .pushBack f => some (l ++ [f])
  | .popBack => l.getLast?.map fun _ => l.dropLast
  | .toggleTop => l.getLast?.map fun b => l.dropLast ++ [!b]

namespace ConditionStack

def call (c : ConditionStack) : ConditionCall → ConditionStack
  | .pushBack f => c.pushBack f
  | .popBack => c.popBack
  | .toggleTop => c.toggleTop

/-- The words for a vector. -/
def ofVector (l : List Bool) : ConditionStack :=
  ⟨.ofNat l.length, if false ∈ l then .ofNat (l.idxOf false) else noFalse⟩

theorem ofNat_ne {i j : Nat} (hij : i < j) (hj : j < 2 ^ 32) : UInt32.ofNat i ≠ UInt32.ofNat j := by
  intro h
  rw [UInt32.ofNat_eq_iff_mod_eq_toNat, UInt32.toNat_ofNat', Nat.mod_eq_of_lt hj,
    Nat.mod_eq_of_lt (Nat.lt_trans hij hj)] at h
  omega

section
variable {l l' : List Bool}

/-- The position of an element is never the word for "none". -/
theorem firstFalsePos_eq_noFalse (hl : l.length < 2 ^ 32) :
    (ofVector l).firstFalsePos = noFalse ↔ false ∉ l := by
  by_cases hfalse : false ∈ l
  · have hpos := idxOf_lt_length_iff.mpr hfalse
    have hne : UInt32.ofNat (l.idxOf false) ≠ noFalse :=
      ofNat_ne (j := 2 ^ 32 - 1) (by omega) (by decide)
    simp [ofVector, hfalse, hne]
  · simp [ofVector, hfalse]

theorem firstFalsePos_ne_length (hl : l.length + 1 < 2 ^ 32) :
    (ofVector l).firstFalsePos ≠ .ofNat l.length := by
  by_cases hfalse : false ∈ l
  · have hpos := idxOf_lt_length_iff.mpr hfalse
    simpa [ofVector, hfalse] using ofNat_ne hpos (by omega)
  · have hne : UInt32.ofNat l.length ≠ noFalse :=
      ofNat_ne (j := 2 ^ 32 - 1) (by omega) (by decide)
    simpa [ofVector, hfalse] using hne.symm

theorem ofVector_append (b : Bool) : ofVector (l ++ [b]) = ⟨.ofNat l.length + 1,
    if false ∈ l ∨ b = true then (ofVector l).firstFalsePos else .ofNat l.length⟩ := by
  by_cases hfalse : false ∈ l <;> cases b <;>
    simp [ofVector, hfalse, idxOf_append, UInt32.ofNat_add]

/-- One call: the words stay those of the vector. -/
theorem call_ofVector {a : ConditionCall} (h : conditionVector l a = some l')
    (hl : l.length < 2 ^ 32) : (ofVector l).call a = ofVector l' := by
  cases a with
  | pushBack f =>
    cases h
    have hnone := firstFalsePos_eq_noFalse hl
    rw [ofVector_append, call, pushBack]
    by_cases hfalse : false ∈ l <;> cases f <;> simp_all <;> rfl
  | popBack =>
    obtain ⟨b, hb, rfl⟩ := Option.map_eq_some_iff.mp h
    obtain ⟨l, rfl⟩ := getLast?_eq_some_iff.mp hb
    rw [length_append] at hl
    have hne := firstFalsePos_ne_length hl
    have hnone := firstFalsePos_eq_noFalse (Nat.lt_of_succ_lt hl)
    rw [dropLast_concat, ofVector_append, call, popBack]
    change _ = ConditionStack.mk (.ofNat l.length) (ofVector l).firstFalsePos
    by_cases hfalse : false ∈ l <;> cases b <;> simp_all
  | toggleTop =>
    obtain ⟨b, hb, rfl⟩ := Option.map_eq_some_iff.mp h
    obtain ⟨l, rfl⟩ := getLast?_eq_some_iff.mp hb
    rw [length_append] at hl
    have hne := firstFalsePos_ne_length hl
    have hnone := firstFalsePos_eq_noFalse (Nat.lt_of_succ_lt hl)
    rw [dropLast_concat, ofVector_append, ofVector_append, call, toggleTop]
    by_cases hfalse : false ∈ l <;> cases b <;> simp_all

end
end ConditionStack

/-! ### Whole histories -/

/-- A legal call that leaves a vector the words have room for. -/
def ConditionCall.Fits (l : List Bool) (a : ConditionCall) (l' : List Bool) : Prop :=
  conditionVector l a = some l' ∧ l'.length < 2 ^ 32

theorem words_of_run {calls : List ConditionCall} {l : List Bool}
    (h : Lib.Run ConditionCall.Fits [] calls l) :
    calls.foldl .call ({} : ConditionStack) = .ofVector l ∧ l.length < 2 ^ 32 := by
  induction h with
  | nil => exact ⟨rfl, by decide⟩
  | snoc _ hlast ih =>
    rw [foldl_append, ih.1]
    exact ⟨ConditionStack.call_ofVector hlast.1 ih.2, hlast.2⟩

/-- The class agrees with a vector of booleans in every history of legal calls that
never has `2 ^ 32` conditions open. -/
theorem conditions_agree {calls : List ConditionCall} {l : List Bool}
    (h : Lib.Run ConditionCall.Fits [] calls l) :
    let w := calls.foldl .call ({} : ConditionStack)
    w.empty = l.isEmpty ∧ w.allTrue = l.all id ∧
      w.firstFalsePos = if false ∈ l then .ofNat (l.idxOf false) else ConditionStack.noFalse := by
  obtain ⟨hw, hl⟩ := words_of_run h
  simp only [hw]
  refine ⟨?_, ?_, rfl⟩
  · cases l with
    | nil => rfl
    | cons b l =>
      have hne := (ConditionStack.ofNat_ne (Nat.succ_pos l.length) hl).symm
      exact beq_eq_false_iff_ne.mpr hne
  · rw [Bool.eq_iff_iff, ConditionStack.allTrue, beq_iff_eq,
      ConditionStack.firstFalsePos_eq_noFalse hl]
    simp

theorem conditions_agree_nested :
    ([.pushBack true, .pushBack false, .toggleTop].foldl .call ({} : ConditionStack)).allTrue =
      [true, true].all id :=
  (conditions_agree (((Lib.Run.nil.snoc ⟨rfl, by decide⟩).snoc ⟨rfl, by decide⟩).snoc
    ⟨rfl, by decide⟩)).2.1

theorem pushes_true (n : Nat) :
    (replicate n (ConditionCall.pushBack true)).foldlM conditionVector [] =
        some (replicate n true) ∧
      (replicate n (ConditionCall.pushBack true)).foldl .call ({} : ConditionStack) =
        ⟨.ofNat n, ConditionStack.noFalse⟩ := by
  induction n with
  | zero => exact ⟨rfl, rfl⟩
  | succ n ih =>
    rw [replicate_succ', foldlM_append, foldl_append, ih.1, ih.2, replicate_succ']
    exact ⟨rfl, by simp [ConditionStack.call, ConditionStack.pushBack, UInt32.ofNat_add]⟩

/-- With `2 ^ 32` true conditions the size wraps to zero. -/
theorem conditions_wrap : ∃ (calls : List ConditionCall) (l : List Bool),
    calls.foldlM conditionVector [] = some l ∧
      (calls.foldl .call ({} : ConditionStack)).empty ≠ l.isEmpty := by
  obtain ⟨n, hn, hword⟩ : ∃ n, n ≠ 0 ∧ UInt32.ofNat n = 0 := ⟨2 ^ 32, by decide, rfl⟩
  refine ⟨_, _, (pushes_true n).1, ?_⟩
  rw [(pushes_true n).2]
  simp [ConditionStack.empty, hword, hn]

end Lithium
