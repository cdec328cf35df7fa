import Lithium.Wallet.Descriptors

/-!
# Descriptor managers after a restart

A manager whose range starts at zero has, after each `TopUp`, exactly the scripts of its
range in its map, and so has a manager that is loaded from what it has written.
-/

namespace Lithium
open Lib
variable {i : Int} {l : List CScript}

section
variable {π γ : Type} {d : Descriptor π γ} {scripts : Int → List CScript}

/-- The descriptor expands to the given scripts, its caches give back what has been
expanded, and scripts are not repeated. -/
structure Descriptor.Genuine (d : Descriptor π γ) (scripts : Int → List CScript) : Prop where
  fromCache : ∀ {i c l}, d.expandFromCache i c = some l → l = scripts i
  expanded : ∀ {i keys l c}, d.expand i keys = some (l, c) →
    l = scripts i ∧ ∀ c₀, d.expandFromCache i (d.merge c₀ c) = some (scripts i)
  kept : ∀ {i j keys l c c₀ l₀}, d.expand i keys = some (l, c) → d.expandFromCache j c₀ = some l₀ →
    d.expandFromCache j (d.merge c₀ c) = some l₀
  nodup : ∀ i, (scripts i).Nodup
  apart : d.isRange = true → ∀ {i j s}, s ∈ scripts i → s ∈ scripts j → i = j

/-- The scripts of the index can be had, from the cache or with the keys. -/
def Descriptor.Expands (d : Descriptor π γ) (keys : π) (cache : γ) (i : Int) : Prop :=
  (∃ l, d.expandFromCache i cache = some l) ∨ ∃ r, d.expand i keys = some r

/-- Scripts of one index are not scripts of another one that is in use. -/
theorem Descriptor.Genuine.index_eq (hd : d.Genuine scripts) {m j : Int} {s : CScript}
    (hsing : d.isRange = false → m ≤ 0) (hi : 0 ≤ i ∧ i ≤ m) (hj : 0 ≤ j ∧ j ≤ m)
    (hsi : s ∈ scripts i) (hsj : s ∈ scripts j) : i = j := by
  cases hrng : d.isRange with
  | true => exact hd.apart hrng hsi hsj
  | false =>
    have := hsing hrng
    omega

namespace DescriptorScriptPubKeyMan
variable {size n : Nat} {man man' : DescriptorScriptPubKeyMan γ} {keys : π}

section
variable (d scripts) (n size man man')

/-- The map has the scripts of the indexes up to the highest in the cache. -/
structure Filled (max : Int) (m : CScript → Option Int) (cache : γ) : Prop where
  start : -1 ≤ max
  single : d.isRange = false → max ≤ 0
  map : ∀ s i, m s = some i ↔ 0 ≤ i ∧ i ≤ max ∧ s ∈ scripts i
  cached : ∀ i, 0 ≤ i → i ≤ max → d.expandFromCache i cache = some (scripts i)

/-- What a loop leaves that has added `n` indexes. -/
structure Grown : Prop
    extends Filled d scripts man'.maxCachedIndex man'.mapScriptPubKeys man'.cache where
  max_eq : man'.maxCachedIndex = man.maxCachedIndex + n
  rangeStart : man'.rangeStart = man.rangeStart
  rangeEnd : man'.rangeEnd = man.rangeEnd
  nextIndex : man'.nextIndex = man.nextIndex
  keypoolSize : man'.keypoolSize = man.keypoolSize

/-- The invariant of a manager: its range starts at zero, and nothing or the whole range
has been cached. -/
structure Ranged : Prop
    extends Filled d scripts man.maxCachedIndex man.mapScriptPubKeys man.cache where
  rangeStart : d.isRange = true → man.rangeStart = 0
  rangeEnd : 0 ≤ man.rangeEnd
  nextIndex : 0 ≤ man.nextIndex
  all : man.maxCachedIndex = -1 ∨ man.maxCachedIndex = man.rangeEnd - 1

/-- The counters of a call of `TopUp` fit, and if the first index that it has to add can
be had from the cache or with the keys, then so can all of them. -/
structure TopsUp (keys : π) : Prop where
  fits : man.nextIndex + man.targetSize size < 2 ^ 31
  whole : d.Expands keys man.cache (man.maxCachedIndex + 1) → ∀ i, man.maxCachedIndex < i →
    i < man.newRangeEnd d size → d.Expands keys man.cache i

/-- The manager after a `TopUp`, and the range if it has succeeded. -/
structure Topped (filled : Bool) : Prop extends Ranged d scripts man' where
  nextIndex_eq : man'.nextIndex = man.nextIndex
  keypoolSize_eq : man'.keypoolSize = man.keypoolSize
  full : filled = true → man'.rangeStart = 0 ∧ man'.rangeEnd = man.newRangeEnd d size ∧
    man'.rangeEnd - 1 = man'.maxCachedIndex

end

/-! ### The map and the cache -/

theorem filled_empty (cache : γ) : Filled d scripts (-1) (fun _ => none) cache := by
  refine ⟨le_rfl, fun _ => by omega, fun s i => ?_, fun i hi hle => by omega⟩
  exact iff_of_false nofun (by omega)

theorem Filled.add {max : Int} {m : CScript → Option Int} {cache cache' : γ}
    (hd : d.Genuine scripts) (h : Filled d scripts max m cache)
    (hsing : d.isRange = false → max + 1 ≤ 0)
    (hnew : d.expandFromCache (max + 1) cache' = some (scripts (max + 1)))
    (hold : ∀ i l, d.expandFromCache i cache = some l → d.expandFromCache i cache' = some l) :
    Filled d scripts (max + 1)
      (fun s => if s ∈ scripts (max + 1) then some (max + 1) else m s) cache' := by
  have hstart := h.start
  refine ⟨by omega, hsing, fun s i => ?_, fun i hi hle => ?_⟩
  · split_ifs with hs
    · rw [Option.some_inj]
      constructor
      · rintro rfl
        exact ⟨by omega, le_rfl, hs⟩
      · rintro ⟨hi, hle, hsi⟩
        exact hd.index_eq hsing ⟨by omega, le_rfl⟩ ⟨hi, hle⟩ hs hsi
    · rw [h.map]
      refine ⟨fun ⟨hi, hle, hsi⟩ => ⟨hi, by omega, hsi⟩, fun ⟨hi, hle, hsi⟩ => ⟨hi, ?_, hsi⟩⟩
      rcases Int.lt_or_eq_of_le hle with hlt | rfl
      · omega
      · exact absurd hsi hs
  · rcases Int.lt_or_eq_of_le hle with hlt | rfl
    · exact hold i _ (h.cached i hi (Int.lt_add_one_iff.mp hlt))
    · exact hnew

theorem Grown.of_addIndex {cache : γ}
    (h : Grown d scripts n (man.addIndex l cache) man') : Grown d scripts (n + 1) man man' where
  __ := h
  max_eq := h.max_eq.trans (by simp only [addIndex]; omega)

theorem loadScripts_ok {m : CScript → Option Int} (hl : l.Nodup) (hnew : ∀ s ∈ l, m s = none) :
    loadScripts i m l = .ok fun s => if s ∈ l then some i else m s := by
  induction l generalizing m with
  | nil => simp [loadScripts, pure, Except.pure]
  | cons a l ih =>
    obtain ⟨ha, hl⟩ := List.nodup_cons.mp hl
    have hrest : ∀ s ∈ l, Function.update m a (some i) s = none := by
      intro s hs
      rw [Function.update_of_ne (by rintro rfl; exact ha hs), hnew s (List.mem_cons_of_mem _ hs)]
    have htail := ih hl hrest
    rw [loadScripts] at htail ⊢
    rw [List.foldlM_cons, hnew a List.mem_cons_self]
    refine htail.trans (congrArg _ (funext fun s => ?_))
    by_cases hs : s ∈ l <;> by_cases hsa : s = a <;> simp [hs, hsa]

section
variable (man keys) (hd : d.Genuine scripts)
  (h : Filled d scripts man.maxCachedIndex man.mapScriptPubKeys man.cache)
  (hsing : d.isRange = false → man.maxCachedIndex + n ≤ 0)

include hd h hsing

/-- Indexes that can all be had are all added. -/
theorem Filled.topUpLoop (hexp : ∀ i, man.maxCachedIndex < i → i ≤ man.maxCachedIndex + n →
    d.Expands keys man.cache i) :
    ∃ man', topUpLoop d keys n man = (true, man') ∧ Grown d scripts n man man' := by
  induction n generalizing man with
  | zero => exact ⟨man, rfl, h, by simp, rfl, rfl, rfl, rfl⟩
  | succ n ih =>
    have hadd : ∀ {cache}, d.expandFromCache (man.maxCachedIndex + 1) cache =
          some (scripts (man.maxCachedIndex + 1)) →
        (∀ i l, d.expandFromCache i man.cache = some l → d.expandFromCache i cache = some l) →
        ∃ man', DescriptorScriptPubKeyMan.topUpLoop d keys n
          (man.addIndex (scripts (man.maxCachedIndex + 1)) cache) = (true, man') ∧
          Grown d scripts (n + 1) man man' := by
      intro cache hnew hold
      have hfst := h.add hd (fun hr => by have := hsing hr; omega) hnew hold
      obtain ⟨man', hloop, hgrown⟩ := ih (man.addIndex _ cache) hfst
        (fun hr => by have := hsing hr; simp only [addIndex]; omega) fun i hlow hhigh => by
          simp only [addIndex] at hlow hhigh
          exact (hexp i (by omega) (by omega)).imp_left fun ⟨l, hl⟩ => ⟨l, hold i l hl⟩
      exact ⟨man', hloop, hgrown.of_addIndex⟩
    rw [DescriptorScriptPubKeyMan.topUpLoop]
    split
    · next l hl =>
      obtain rfl := hd.fromCache hl
      exact hadd hl fun _ _ hi => hi
    · next hcache =>
      split
      · next hexpand =>
        have hfst := hexp (man.maxCachedIndex + 1) (Int.lt_succ _) (by omega)
        simp [Descriptor.Expands, hcache, hexpand] at hfst
      · next l c hexpand =>
        obtain ⟨rfl, hnew⟩ := hd.expanded hexpand
        exact hadd (hnew _) fun _ _ hi => hd.kept hexpand hi

/-- The loop of `SetCache` adds indexes as the one of `TopUp` does. -/
theorem Filled.setCacheLoop (hcached : ∀ i, 0 ≤ i → i ≤ man.maxCachedIndex + n →
      d.expandFromCache i man.cache = some (scripts i)) :
    ∃ man', setCacheLoop d n (man.maxCachedIndex + 1) man = .ok man' ∧
      Grown d scripts n man man' := by
  induction n generalizing man with
  | zero => exact ⟨man, rfl, h, by simp, rfl, rfl, rfl, rfl⟩
  | succ n ih =>
    have hstart := h.start
    have hnow := hcached (man.maxCachedIndex + 1) (by omega) (by omega)
    have hnew : ∀ s ∈ scripts (man.maxCachedIndex + 1), man.mapScriptPubKeys s = none := by
      intro s hs
      by_contra hsome
      obtain ⟨i, hi⟩ := Option.ne_none_iff_exists'.mp hsome
      obtain ⟨hi, hle, hsi⟩ := (h.map s i).mp hi
      have := hd.index_eq hsing ⟨hi, by omega⟩ ⟨by omega, by omega⟩ hsi hs
      omega
    have hfst := h.add hd (fun hr => by have := hsing hr; omega) hnow fun _ _ hl => hl
    obtain ⟨man', hloop, hgrown⟩ := ih (man.addIndex _ man.cache) hfst
      (fun hr => by have := hsing hr; simp only [addIndex]; omega)
      fun i hi hle => hcached i hi (by simp only [addIndex] at hle; omega)
    refine ⟨man', ?_, hgrown.of_addIndex⟩
    rw [DescriptorScriptPubKeyMan.setCacheLoop, hnow]
    dsimp only
    rw [loadScripts_ok (hd.nodup _) hnew]
    exact hloop

end

/-! ### The range -/

theorem int32_of_lt {a : Int} (hnn : 0 ≤ a) (h : a < 2 ^ 31) : int32 a = a := by
  rw [int32, Int.bmod_eq_of_le (by omega) (by omega)]

theorem Ranged.withNextIndex (h : Ranged d scripts man) (hi : 0 ≤ i) :
    Ranged d scripts { man with nextIndex := i } := { h with nextIndex := hi }

theorem newRangeEnd_eq (hnext : 0 ≤ man.nextIndex)
    (hfits : man.nextIndex + man.targetSize size < 2 ^ 31) : man.newRangeEnd d size =
      if d.isRange then max (man.nextIndex + man.targetSize size) man.rangeEnd else 1 := by
  rw [newRangeEnd, int32_of_lt (a := man.targetSize size) (by omega) (by omega),
    int32_of_lt (by omega) hfits]

theorem Ranged.topUp (hd : d.Genuine scripts) (h : Ranged d scripts man)
    (htops : TopsUp d size man keys) : ∃ filled man', man.topUp d keys size = .ok (filled, man') ∧
      Topped d scripts size man man' filled := by
  have hstart : (man.setRange d).rangeStart = 0 := by
    simp only [setRange]
    split_ifs with hrng
    · exact h.rangeStart hrng
    · rfl
  have hsing := h.single
  have hmin := h.start
  have hall := h.all
  have hend := h.rangeEnd
  have hnew := newRangeEnd_eq (d := d) h.nextIndex htops.fits
  have hle : man.maxCachedIndex + 1 ≤ man.newRangeEnd d size := by
    rw [hnew]
    split_ifs with hrng
    · omega
    · have := hsing (Bool.not_eq_true _ ▸ hrng)
      omega
  obtain ⟨n, hn⟩ := Int.le.dest hle
  have hcnt : (man.newRangeEnd d size - (man.maxCachedIndex + 1)).toNat = n := by omega
  rw [DescriptorScriptPubKeyMan.topUp, hcnt]
  by_cases hfst : n = 0 ∨ d.Expands keys man.cache (man.maxCachedIndex + 1)
  · have hone : d.isRange = false → man.maxCachedIndex + n ≤ 0 := by
      intro hr
      rw [hr, if_neg Bool.false_ne_true] at hnew
      omega
    obtain ⟨man₁, hloop, hgrown⟩ := Filled.topUpLoop (man.setRange d) keys hd h.toFilled
      hone fun i (hlow : man.maxCachedIndex < i) (hhigh : i ≤ man.maxCachedIndex + n) =>
        htops.whole (hfst.resolve_left (by omega)) i hlow (by omega)
    have hmax : man₁.maxCachedIndex = man.maxCachedIndex + n := hgrown.max_eq
    have hfull : man.newRangeEnd d size - 1 = man₁.maxCachedIndex := by omega
    rw [hloop]
    exact ⟨true, { man₁ with rangeEnd := man.newRangeEnd d size }, if_pos hfull,
      { hgrown with
        rangeStart := fun _ => hgrown.rangeStart.trans hstart
        rangeEnd := (by omega : 0 ≤ man.maxCachedIndex + 1).trans hle
        nextIndex := h.nextIndex.trans_eq hgrown.nextIndex.symm
        all := .inr hfull.symm
        nextIndex_eq := hgrown.nextIndex
        keypoolSize_eq := hgrown.keypoolSize
        full := fun _ => ⟨hgrown.rangeStart.trans hstart, rfl, hfull⟩ }⟩
  · -- the first index cannot be had, and nothing is added
    obtain ⟨hn, hnone⟩ := not_or.mp hfst
    obtain ⟨m, rfl⟩ := Nat.exists_eq_succ_of_ne_zero hn
    simp only [Descriptor.Expands, not_or, not_exists, ← Option.eq_none_iff_forall_ne_some]
      at hnone
    have hloop : topUpLoop d keys (m + 1) (man.setRange d) = (false, man.setRange d) := by
      simp only [topUpLoop, setRange, hnone.1, hnone.2]
    rw [hloop]
    refine ⟨false, man.setRange d, rfl, { h with
      rangeStart := fun _ => hstart, rangeEnd := ?_, all := ?_, nextIndex_eq := rfl
      keypoolSize_eq := rfl, full := nofun }⟩
    · simp only [setRange]
      split_ifs <;> omega
    · simp only [setRange]
      split_ifs with hrng
      · exact hall
      · have := hsing (Bool.not_eq_true _ ▸ hrng)
        omega

end DescriptorScriptPubKeyMan
end

/-! ### Calls -/

section Calls
open DescriptorScriptPubKeyMan

inductive KeyCall (π γ : Type) where
  | topUp (keys : π) (size : Nat)
  | getNewDestination (keys : π) (type : OutputType)
  | markUnusedAddresses (keys : π) (script : CScript)
  | updateWalletDescriptor (desc : WalletDescriptor γ)

/-- A manager, and the indexes that it has given out since the last update. -/
structure KeyLog (γ : Type) where
  man : DescriptorScriptPubKeyMan γ
  issued : List Int

variable {π γ δ : Type} (extractDestination : CScript → Option δ) (d : Descriptor π γ)

/-- A call, with the answer whether it has succeeded. -/
def KeyCall.run (s : KeyLog γ) : KeyCall π γ → Except KeyAbort (Bool × KeyLog γ)
  | .topUp keys size => do
    let (filled, man) ← s.man.topUp d keys size
    .ok (filled, { s with man })
  | .getNewDestination keys type => do
    match ← s.man.getNewDestination d extractDestination keys type with
    | (.ok _, man) => .ok (true, ⟨man, s.man.nextIndex :: s.issued⟩)
    | (.error _, man) => .ok (false, { s with man })
  | .markUnusedAddresses keys script => do
    let (_, man) ← s.man.markUnusedAddresses d extractDestination keys script
    .ok (true, { s with man })
  | .updateWalletDescriptor desc => do .ok (true, ⟨← s.man.updateWalletDescriptor desc, []⟩)

/-- Ranges start at zero, for descriptors that have one. -/
def WalletDescriptor.FromZero (desc : WalletDescriptor γ) : Prop :=
  (d.isRange = true → desc.rangeStart = 0) ∧ 0 ≤ desc.rangeEnd ∧ 0 ≤ desc.nextIndex

/-- The condition on a call, about the manager before it. -/
def KeyCall.Regular (man : DescriptorScriptPubKeyMan γ) : KeyCall π γ → Prop
  | .topUp keys size => (size = 0 ∨ man.keypoolSize ≤ size) ∧ TopsUp d size man keys
  | .getNewDestination keys _ => TopsUp d 0 man keys ∧ man.nextIndex + 1 < 2 ^ 31
  | .markUnusedAddresses keys script => ∀ index, man.mapScriptPubKeys script = some index →
      TopsUp d 0 { man with nextIndex := max man.nextIndex (index + 1) } keys ∧ index + 1 < 2 ^ 31
  | .updateWalletDescriptor desc => desc.FromZero d

/-- A descriptor that has just been imported. -/
structure KeyLog.Imported (s : KeyLog γ) : Prop where
  map : s.man.mapScriptPubKeys = fun _ => none
  max : s.man.maxCachedIndex = -1
  range : s.man.FromZero d
  issued : s.issued = []

/-- The invariant: the manager is in order, and indexes that were given out are below the
next one. -/
structure KeyLog.Sound (scripts : Int → List CScript) (s : KeyLog γ) : Prop where
  ranged : Ranged d scripts s.man
  below : ∀ i ∈ s.issued, i < s.man.nextIndex
  nodup : s.issued.Nodup

variable {d} {scripts : Int → List CScript} {s : KeyLog γ} {keys : π}

theorem KeyLog.Imported.sound (h : s.Imported d) : s.Sound d scripts := by
  refine ⟨⟨?_, h.range.1, h.range.2.1, h.range.2.2, .inl h.max⟩, ?_, ?_⟩
  · rw [h.max, h.map]
    exact filled_empty _
  · simp [h.issued]
  · simp [h.issued]

/-- The manager takes the indexes up to one that is in the cache. -/
theorem DescriptorScriptPubKeyMan.Ranged.markLoop {man : DescriptorScriptPubKeyMan γ}
    (h : Ranged d scripts man) {n : Nat}
    (hn : n ≠ 0 → man.nextIndex + n ≤ man.maxCachedIndex + 1 ∧ man.nextIndex + n < 2 ^ 31) :
    ∃ result, markLoop d extractDestination n man =
      .ok (result, { man with nextIndex := man.nextIndex + n }) := by
  induction n generalizing man with
  | zero => exact ⟨[], by simp [DescriptorScriptPubKeyMan.markLoop]⟩
  | succ n ih =>
    have hnext := h.nextIndex
    obtain ⟨hcached, hfits⟩ := hn (Nat.succ_ne_zero n)
    obtain ⟨result, hres⟩ := ih (h.withNextIndex (i := man.nextIndex + 1) (by omega))
      fun _ => ⟨by dsimp only; omega, by dsimp only; omega⟩
    have hsum : man.nextIndex + 1 + (n : Int) = man.nextIndex + (n + 1 : Nat) := by omega
    refine ⟨(scripts man.nextIndex).head?.bind extractDestination :: result, ?_⟩
    rw [DescriptorScriptPubKeyMan.markLoop, h.cached _ hnext (by omega)]
    rw [takeIndex, int32_of_lt (by omega) (by omega), hres, hsum]
    rfl

section
variable (hd : d.Genuine scripts) (h : s.Sound d scripts)

include hd h

theorem KeyLog.Sound.getNewDestination {type : OutputType}
    (hreg : (KeyCall.getNewDestination keys type : KeyCall π γ).Regular d s.man) :
    Ends (fun r => Ranged d scripts r.2 ∧ r.2.nextIndex = match r.1 with
        | .ok _ => s.man.nextIndex + 1
        | .error _ => s.man.nextIndex) (· ≠ .rangeNotCached)
      (s.man.getNewDestination d extractDestination keys type) := by
  obtain ⟨filled, man, htop, htopped⟩ := h.ranged.topUp hd hreg.1
  have hranged := htopped.toRanged
  have hnext := htopped.nextIndex_eq
  have hnone : ¬ man.rangeEnd ≤ man.maxCachedIndex := by
    have := hranged.all
    have := hranged.rangeEnd
    omega
  have hnn := hranged.nextIndex
  have htake : man.takeIndex = { man with nextIndex := s.man.nextIndex + 1 } := by
    rw [takeIndex, hnext, int32_of_lt (by omega) hreg.2]
  rw [DescriptorScriptPubKeyMan.getNewDestination]
  split_ifs
  · exact ends_ok ⟨h.ranged, rfl⟩
  split
  · exact ends_error nofun
  split_ifs
  · exact ends_error nofun
  rw [htop, ok_bind]
  dsimp only
  rw [if_neg hnone, ok_bind]
  dsimp only
  rw [giveDestination]
  refine ends_ok ?_
  split
  · exact ⟨hranged, hnext⟩
  · split
    · exact ⟨hranged, hnext⟩
    · rw [htake]
      exact ⟨hranged.withNextIndex (by omega), rfl⟩

theorem KeyLog.Sound.markUnusedAddresses {script : CScript}
    (hreg : (KeyCall.markUnusedAddresses keys script : KeyCall π γ).Regular d s.man) :
    ∃ r, s.man.markUnusedAddresses d extractDestination keys script = .ok r ∧ Ranged d scripts r.2 ∧
      s.man.nextIndex ≤ r.2.nextIndex := by
  rw [DescriptorScriptPubKeyMan.markUnusedAddresses]
  cases hidx : s.man.mapScriptPubKeys script with
  | none => exact ⟨_, rfl, h.ranged, le_rfl⟩
  | some index =>
    obtain ⟨htops, hfits⟩ := hreg index hidx
    obtain ⟨hnn, hle, -⟩ := (h.ranged.map script index).mp hidx
    have hsum : s.man.nextIndex + ((index + 1 - s.man.nextIndex).toNat : Int) =
        max s.man.nextIndex (index + 1) := by omega
    obtain ⟨result, hres⟩ := h.ranged.markLoop extractDestination
      (n := (index + 1 - s.man.nextIndex).toNat) fun hn => ⟨by omega, by omega⟩
    rw [hsum] at hres
    obtain ⟨filled, man, htop, hman⟩ := (h.ranged.withNextIndex (by omega)).topUp hd htops
    refine ⟨(result, man), ?_, hman.toRanged, (le_max_left _ _).trans_eq hman.nextIndex_eq.symm⟩
    dsimp only
    rw [hres, ok_bind]
    dsimp only
    rw [htop, ok_bind]

theorem KeyLog.Sound.run {call : KeyCall π γ} (hreg : call.Regular d s.man) :
    Ends (fun r => r.2.Sound d scripts) (· ≠ .rangeNotCached)
      (call.run extractDestination d s) := by
  cases call with
  | topUp keys size =>
    obtain ⟨filled, man, htop, htopped⟩ := h.ranged.topUp hd hreg.2
    rw [KeyCall.run, htop]
    exact ends_ok ⟨htopped.toRanged,
      fun i hi => (h.below i hi).trans_eq htopped.nextIndex_eq.symm, h.nodup⟩
  | getNewDestination keys type =>
    refine (h.getNewDestination extractDestination hd hreg).bind ?_
    rintro ⟨what | dest, man⟩ ⟨hranged, hnext⟩
    · exact ends_ok ⟨hranged, fun i hi => (h.below i hi).trans_eq hnext.symm, h.nodup⟩
    · have hlast : man.nextIndex = s.man.nextIndex + 1 := hnext
      refine ends_ok ⟨hranged, fun i hi => ?_, List.nodup_cons.mpr ⟨fun hi => ?_, h.nodup⟩⟩
      · change i < man.nextIndex
        rcases List.mem_cons.mp hi with rfl | hi
        · omega
        · have := h.below i hi
          omega
      · exact absurd (h.below _ hi) (lt_irrefl _)
  | markUnusedAddresses keys script =>
    obtain ⟨r, hmark, hranged, hnext⟩ := h.markUnusedAddresses extractDestination hd hreg
    rw [KeyCall.run, hmark]
    exact ends_ok ⟨hranged, fun i hi => (h.below i hi).trans_le hnext, h.nodup⟩
  | updateWalletDescriptor desc =>
    rw [KeyCall.run, updateWalletDescriptor]
    split_ifs
    · exact ends_error nofun
    · exact ends_ok (KeyLog.Imported.sound ⟨rfl, rfl, hreg, rfl⟩)

end

end Calls

/-! ### A descriptor of key hashes -/

namespace KeyHashes

/-- The witness program of the index, for a hash with its number. -/
def script (i : Int) : CScript :=
  ⟨0x00 :: 0x14 :: UInt8.ofNat i.toNat :: List.replicate 19 1, by simp⟩

def scripts (i : Int) : List CScript := if 0 ≤ i ∧ i < 256 then [script i] else []

end KeyHashes

end Lithium
