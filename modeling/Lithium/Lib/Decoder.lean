import Mathlib.Data.List.Basic
import Mathlib.Tactic.Ring

/-!
# Byte decoders and self-delimiting encoders

A decoder consumes a list of bytes from the front and either fails or returns
a value with the bytes it did not use. The file is written for formats in
which records follow one another without separators, so the unit of reasoning
is not "decoding the encoding gives the value back" but the stronger `Reads`:
the decoder takes exactly the encoding off the front of *any* longer input.
`Reads` composes along `bind`, which is how every format is verified.

The second notion, `SelfDelimiting`, is about an encoder alone: two encodings
at the front of equal inputs are encodings of equal values. It is what
injectivity arguments about hashed serialisations need, and it holds on a
larger domain than `Reads` whenever the decoder refuses long inputs that the
encoder still writes.
-/

namespace Lithium.Lib
open List

abbrev Bytes := List UInt8

/-! ### Little-endian numbers -/

/-- The `w` low bytes of `n`, least significant first. -/
def natToLE : Nat → Nat → Bytes
  | 0, _ => []
  | w + 1, n => UInt8.ofNat n :: natToLE w (n / 256)

/-- The number whose base-256 digits are `bs`, least significant first. -/
def leToNat : Bytes → Nat
  | [] => 0
  | b :: bs => b.toNat + 256 * leToNat bs

@[simp] theorem natToLE_length (w n : Nat) : (natToLE w n).length = w := by
  induction w generalizing n with
  | zero => rfl
  | succ w ih => simp [natToLE, ih]

theorem leToNat_natToLE (w n : Nat) : leToNat (natToLE w n) = n % 256 ^ w := by
  induction w generalizing n with
  | zero => simp [natToLE, leToNat, Nat.mod_one]
  | succ w ih =>
    rw [natToLE, leToNat, ih, pow_succ', Nat.mod_mul]
    simp

theorem leToNat_natToLE_of_lt {w n : Nat} (h : n < 256 ^ w) : leToNat (natToLE w n) = n := by
  rw [leToNat_natToLE, Nat.mod_eq_of_lt h]

theorem leToNat_lt (bs : Bytes) : leToNat bs < 256 ^ bs.length := by
  induction bs with
  | nil => simp [leToNat]
  | cons b bs ih =>
    have hb : b.toNat < 256 := b.toNat_lt
    rw [leToNat, length_cons, pow_succ']
    omega

theorem natToLE_leToNat (bs : Bytes) : natToLE bs.length (leToNat bs) = bs := by
  induction bs with
  | nil => rfl
  | cons b bs ih =>
    have hb : b.toNat < 256 := b.toNat_lt
    have hdiv : (b.toNat + 256 * leToNat bs) / 256 = leToNat bs := by omega
    have hmod : UInt8.ofNat (b.toNat + 256 * leToNat bs) = b := by
      apply UInt8.toNat_inj.mp
      rw [UInt8.toNat_ofNat']
      omega
    rw [leToNat, length_cons, natToLE, hdiv, hmod, ih]

/-! ### Decoders -/

variable {r s : Bytes}

/-- A decoder of `α` with failures of type `ε`. -/
abbrev Decoder (ε α : Type) := StateT Bytes (Except ε) α

namespace Decoder
variable {ε α β : Type}

/-- The first `n` bytes, or the failure `eof` when there are fewer. -/
def take (eof : ε) (n : Nat) : Decoder ε {bs : Bytes // bs.length = n} := fun input =>
  if h : n ≤ input.length then
    .ok (⟨input.take n, length_take_of_le h⟩, input.drop n)
  else .error eof

def natLE (eof : ε) (w : Nat) : Decoder ε Nat := do
  let bs ← take eof w
  pure (leToNat bs.val)

def many (d : Decoder ε α) : (n : Nat) → Decoder ε {xs : List α // xs.length = n}
  | 0 => pure ⟨[], rfl⟩
  | n + 1 => do
    let x ← d
    let xs ← many d n
    pure ⟨x :: xs.val, by simp [xs.property]⟩

/-- The decoder `d` takes exactly the bytes `bs` off the front of every longer
input and returns `a`. -/
def Reads (d : Decoder ε α) (bs : Bytes) (a : α) : Prop :=
  ∀ rest, d.run (bs ++ rest) = .ok (a, rest)

variable {d : Decoder ε α} {bs : Bytes} {f : α → Decoder ε β}

/-- A sequence succeeds in two steps. -/
theorem run_bind_ok {rest : Bytes} {b : β} : (d >>= f).run bs = .ok (b, rest) ↔
      ∃ a mid, d.run bs = .ok (a, mid) ∧ (f a).run mid = .ok (b, rest) := by
  rw [StateT.run_bind]
  constructor
  · intro h
    cases hd : d.run bs with
    | error e => rw [hd] at h; cases h
    | ok r =>
      rw [hd] at h
      exact ⟨r.1, r.2, rfl, h⟩
  · rintro ⟨a, mid, hd, hf⟩
    rw [hd]
    exact hf

variable {a : α}

@[simp] theorem run_pure_ok {b : α} {rest : Bytes} :
    (Pure.pure a : Decoder ε α).run bs = .ok (b, rest) ↔ a = b ∧ bs = rest := by
  change Except.ok (a, bs) = .ok (b, rest) ↔ _
  simp

theorem Reads.pure (a : α) : Reads (Pure.pure a : Decoder ε α) [] a := fun _ => rfl

theorem Reads.bind {cs : Bytes} {b : β} (hd : Reads d bs a) (hf : Reads (f a) cs b) :
    Reads (d >>= f) (bs ++ cs) b := by
  intro rest
  rw [StateT.run_bind, append_assoc, hd]
  exact hf rest

/-- The last step of a record: nothing is left to read. -/
theorem Reads.map (f : α → β) (hd : Reads d bs a) :
    Reads (d >>= fun x => Pure.pure (f x)) bs (f a) := by
  have h : Reads (d >>= fun x => Pure.pure (f x)) (bs ++ []) (f a) := hd.bind (Reads.pure (f a))
  rwa [append_nil] at h

/-- What a decoder reads off the front is determined by the input. -/
theorem Reads.inj {cs : Bytes} {b : α} (ha : Reads d bs a) (hb : Reads d cs b)
    (h : bs ++ r = cs ++ s) : a = b ∧ r = s := by
  have hrun := ha r
  rw [h, hb s] at hrun
  simpa [eq_comm] using hrun

theorem reads_many {d : Decoder ε α} {enc : α → Bytes} (xs : List α)
    (h : ∀ x ∈ xs, Reads d (enc x) x) : Reads (many d xs.length) (xs.flatMap enc) ⟨xs, rfl⟩ := by
  induction xs with
  | nil => exact Reads.pure _
  | cons x xs ih =>
    have hx := h x mem_cons_self
    have hxs := ih fun y hy => h y (mem_cons_of_mem _ hy)
    exact hx.bind (hxs.map _)

/-- Whatever `d` returns satisfies `P`. -/
def Yields (d : Decoder ε α) (P : α → Prop) : Prop :=
  ∀ ⦃input a rest⦄, d.run input = .ok (a, rest) → P a

variable {P : α → Prop}

theorem Yields.pure (h : P a) : Yields (Pure.pure a : Decoder ε α) P := by
  intro input b rest hrun
  cases hrun
  exact h

theorem Yields.throw (e : ε) : Yields (MonadExcept.throw e : Decoder ε α) P := by
  intro input b rest hrun
  cases hrun

theorem Yields.true (d : Decoder ε α) : Yields d fun _ => True := fun _ _ _ _ => trivial

theorem Yields.bind {Q : β → Prop} (hd : Yields d P) (hf : ∀ a, P a → Yields (f a) Q) :
    Yields (d >>= f) Q := by
  intro input b rest hrun
  rw [StateT.run_bind] at hrun
  cases hrun' : d.run input with
  | error e =>
    rw [hrun'] at hrun
    cases hrun
  | ok p =>
    rw [hrun'] at hrun
    exact hf p.1 (hd hrun') hrun

theorem Yields.many {d : Decoder ε α} {P : α → Prop} (h : Yields d P) (n : Nat) :
    Yields (many d n) fun xs => ∀ x ∈ xs.val, P x := by
  induction n with
  | zero => exact Yields.pure (by simp)
  | succ n ih =>
    refine h.bind fun x hx => ih.bind fun xs hxs => Yields.pure ?_
    simpa using ⟨hx, hxs⟩

section
variable {d : Decoder ε α} {P : α → Prop} {enc : α → Bytes} (eof : ε)

/-- What `d` returns are the values of `P`, and what it takes for one of them is
its encoding: reading what was written gives the value back, and what is read
is what would be written. -/
@[reducible] def Exact (d : Decoder ε α) (P : α → Prop) (enc : α → Bytes) : Prop :=
  ∀ input a rest, d.run input = .ok (a, rest) ↔ P a ∧ input = enc a ++ rest

theorem Exact.reads (h : Exact d P enc) {a : α} (ha : P a) :
    Reads d (enc a) a := fun _ => (h _ _ _).mpr ⟨ha, rfl⟩

theorem Exact.yields (h : Exact d P enc) : Yields d P := fun _ _ _ hrun => ((h _ _ _).mp hrun).1

theorem exact_take (n : Nat) : Exact (take eof n) (fun _ => True) Subtype.val := by
  rintro input ⟨bs, rfl⟩ rest
  simp only [take, StateT.run, true_and]
  split
  case isTrue h =>
    simp only [Except.ok.injEq, Prod.mk.injEq, Subtype.mk.injEq]
    constructor
    · rintro ⟨hbs, rfl⟩
      rw [← hbs, length_take_of_le h, take_append_drop]
    · rintro rfl
      simp
  case isFalse h =>
    simp only [reduceCtorEq, false_iff]
    rintro rfl
    simp at h

/-- The values may be read in another form that can be turned back. -/
theorem Exact.map (h : Exact d P enc) {Q : β → Prop} {f : α → β} (g : β → α)
    (hf : ∀ a, P a → Q (f a) ∧ g (f a) = a) (hg : ∀ b, Q b → P (g b) ∧ f (g b) = b) :
    Exact (d >>= fun a => Pure.pure (f a)) Q fun b => enc (g b) := by
  intro input b rest
  simp only [run_bind_ok, h _ _ _, run_pure_ok]
  constructor
  · rintro ⟨a, _, ⟨ha, rfl⟩, rfl, rfl⟩
    exact ⟨(hf a ha).1, by rw [(hf a ha).2]⟩
  · rintro ⟨hb, rfl⟩
    exact ⟨g b, rest, ⟨(hg b hb).1, rfl⟩, (hg b hb).2, rfl⟩

theorem exact_natLE (w : Nat) : Exact (natLE eof w) (· < 256 ^ w) (natToLE w) := by
  refine (exact_take eof w).map (fun n => ⟨natToLE w n, natToLE_length w n⟩) ?_ ?_
  · rintro ⟨bs, rfl⟩ -
    exact ⟨leToNat_lt bs, Subtype.ext (natToLE_leToNat bs)⟩
  · exact fun n hn => ⟨trivial, leToNat_natToLE_of_lt hn⟩

end

theorem Exact.many {d : Decoder ε α} {P : α → Prop} {enc : α → Bytes} (h : Exact d P enc)
    (n : Nat) : Exact (many d n) (fun xs => ∀ x ∈ xs.val, P x) fun xs => xs.val.flatMap enc := by
  rintro input ⟨xs, rfl⟩ rest
  induction xs generalizing input with
  | nil =>
    simp only [length_nil, Decoder.many, run_pure_ok]
    simp
  | cons x xs ih =>
    simp only [length_cons, Decoder.many, run_bind_ok, h _ _ _, run_pure_ok, Subtype.mk.injEq,
      List.cons.injEq, forall_mem_cons, flatMap_cons, append_assoc]
    constructor
    · rintro ⟨_, _, ⟨hx, rfl⟩, ys, _, hys, ⟨rfl, hval⟩, rfl⟩
      obtain rfl : ys = ⟨xs, rfl⟩ := Subtype.ext hval
      obtain ⟨hxs, rfl⟩ := (ih _).mp hys
      exact ⟨⟨hx, hxs⟩, rfl⟩
    · rintro ⟨⟨hx, hxs⟩, rfl⟩
      exact ⟨x, _, ⟨hx, rfl⟩, _, _, (ih _).mpr ⟨hxs, rfl⟩, ⟨rfl, rfl⟩, rfl⟩

/-- A decoder that reads `bs` as `a` returns nothing that its results rule
out. -/
theorem Reads.yields (h : Reads d bs a) (hd : Yields d P) : P a := hd (h [])

end Decoder

/-! ### Self-delimiting encoders -/

/-- On the values of `P`, an encoding at the front of an input determines the
value and where it ends. -/
def SelfDelimiting {α : Type} (P : α → Prop) (enc : α → Bytes) : Prop :=
  ∀ ⦃a b r s⦄, P a → P b → enc a ++ r = enc b ++ s → a = b ∧ r = s

namespace SelfDelimiting
variable {α : Type} {P : α → Prop} {enc : α → Bytes}

/-- An encoder whose images a decoder reads back is self-delimiting. -/
theorem of_reads {ε : Type} {d : Decoder ε α} (h : ∀ a, P a → Decoder.Reads d (enc a) a) :
    SelfDelimiting P enc :=
  fun _ _ _ _ ha hb heq => (h _ ha).inj (h _ hb) heq

/-- Equally many self-delimiting records in a row delimit themselves. -/
theorem flatMap (h : SelfDelimiting P enc) {xs ys : List α} (hxs : ∀ x ∈ xs, P x)
    (hys : ∀ y ∈ ys, P y) (hlen : xs.length = ys.length)
    (heq : xs.flatMap enc ++ r = ys.flatMap enc ++ s) : xs = ys ∧ r = s := by
  induction xs generalizing ys with
  | nil =>
    obtain rfl : ys = [] := length_eq_zero_iff.mp hlen.symm
    exact ⟨rfl, heq⟩
  | cons x xs ih =>
    cases ys with
    | nil => simp at hlen
    | cons y ys =>
      simp only [flatMap_cons, append_assoc] at heq
      rw [forall_mem_cons] at hxs hys
      obtain ⟨hhead, htail⟩ := h hxs.1 hys.1 heq
      obtain ⟨hrest, hr⟩ := ih hxs.2 hys.2 (by simpa using hlen) htail
      exact ⟨by rw [hhead, hrest], hr⟩

/-- Self-delimiting records in a row delimit themselves if what follows them
cannot be taken for another one. -/
theorem flatMap_of_tail (h : SelfDelimiting P enc) {T : Bytes → Prop}
    (hT : ∀ x r, P x → ¬ T (enc x ++ r)) {xs ys : List α} (hxs : ∀ x ∈ xs, P x)
    (hys : ∀ y ∈ ys, P y) (hr : T r) (hs : T s) (heq : xs.flatMap enc ++ r = ys.flatMap enc ++ s) :
    xs = ys ∧ r = s := by
  induction xs generalizing ys with
  | nil =>
    cases ys with
    | nil => exact ⟨rfl, heq⟩
    | cons y ys =>
      rw [flatMap_nil, nil_append, flatMap_cons, append_assoc] at heq
      exact absurd (heq ▸ hr) (hT y _ (hys y mem_cons_self))
  | cons x xs ih =>
    rw [flatMap_cons, append_assoc] at heq
    cases ys with
    | nil =>
      rw [flatMap_nil, nil_append] at heq
      exact absurd (heq ▸ hs) (hT x _ (hxs x mem_cons_self))
    | cons y ys =>
      rw [flatMap_cons, append_assoc] at heq
      rw [forall_mem_cons] at hxs hys
      obtain ⟨hhead, htail⟩ := h hxs.1 hys.1 heq
      obtain ⟨hrest, htail⟩ := ih hxs.2 hys.2 htail
      exact ⟨by rw [hhead, hrest], htail⟩

end SelfDelimiting
end Lithium.Lib
