import Mathlib.Algebra.BigOperators.Group.Finset.Piecewise
import Mathlib.Algebra.Order.BigOperators.Group.Finset
import Mathlib.Data.Fintype.Option
import Lithium.Lib.Transition

/-!
# The queue of script checks

`CCheckQueue`: a master adds checks and then waits for their verdict, while
workers take them from the queue in batches. Master and workers run the same
`Loop`. Each of its critical sections is one step here, and so is each check,
which is run outside the lock. The steps of the threads interleave in any order;
no stop is requested.
-/

namespace Lithium
open Lib List Finset Function

/-- Where a thread is. The master is outside of `Loop` unless it is in `Wait`; a
thread that is woken has to get the lock again. -/
inductive Phase where
  | outside
  | entering
  | working
  | waiting
  | woken

/-- A thread in `Loop`, with the batch it has taken and not yet accounted for. -/
structure CheckThread (T : Type) where
  phase : Phase
  vChecks : List T := []
  nNow : Nat := 0
  fOk : Bool := true

/-- How many steps a thread makes until it sleeps, if it takes no other batch. -/
def CheckThread.effort {T : Type} : CheckThread T → Nat
  | ⟨.working, vChecks, _, _⟩ => vChecks.length + 2
  | ⟨.entering, _, _, _⟩ | ⟨.woken, _, _, _⟩ => 1
  | _ => 0

/-- What became of the checks added between two calls of `Wait`. -/
structure Session (T : Type) where
  added : Multiset T := 0
  executed : Multiset T := 0
  skipped : Multiset T := 0

/-- The queue and its threads, of which `none` is the master. Beside them stand the
present session, and the ended ones with what `Wait` returned. -/
structure CCheckQueue (n : Nat) (T : Type) where
  queue : List T := []
  nIdle : Nat := 0
  nTotal : Nat := 0
  fAllOk : Bool := true
  nTodo : Nat := 0
  thread : Option (Fin n) → CheckThread T := fun t =>
    { phase := if t.isNone then .outside else .entering }
  session : Session T := {}
  ended : List (Session T × Bool) := []

def Session.Failed {T : Type} (check : T → Bool) (σ : Session T) : Prop :=
  ∃ c ∈ σ.executed, check c = false

/-- The verdict of a session that has ended: no check is left, a check was skipped only
after a failure, and the result is that of running all checks one by one. -/
def Session.Verdict {T : Type} (check : T → Bool) (σ : Session T) (fRet : Bool) : Prop :=
  σ.executed + σ.skipped = σ.added ∧ (σ.skipped ≠ 0 → σ.Failed check) ∧
    (fRet = true ↔ ∀ c ∈ σ.added, check c = true)

namespace CCheckQueue
variable {n nBatchSize : Nat} {T : Type} {check : T → Bool} {s s' : CCheckQueue n T}
  {t : Option (Fin n)} {p : CheckThread T} {phase : Phase}

variable (s t)

def move (p : CheckThread T) : CCheckQueue n T :=
  { s with thread := update s.thread t p }

def wake : CCheckQueue n T :=
  match (s.thread t).phase with
  | .waiting => s.move t { phase := .woken }
  | _ => s

/-- The clean-up of the previous run of the loop; the last worker wakes the master. -/
def cleanUp : CCheckQueue n T :=
  let fAllOk := s.fAllOk && (s.thread t).fOk
  let nTodo := (s.nTodo + 2 ^ 32 - (s.thread t).nNow) % 2 ^ 32
  let s := if nTodo = 0 ∧ t ≠ none then s.wake none else s
  { s.move t { phase := .entering } with fAllOk, nTodo }

variable {t}

/-- The rest of the critical section: the master returns, or the thread sleeps, or
it takes a batch from the end of the queue. -/
def loopHead (nBatchSize : Nat) (s : CCheckQueue n T) (t : Option (Fin n)) : CCheckQueue n T :=
  if s.queue.isEmpty then
    if t = none ∧ s.nTodo = 0 then
      { s.move t { phase := .outside } with
        nTotal := s.nTotal - 1, fAllOk := true
        session := {}, ended := (s.session, s.fAllOk) :: s.ended }
    else { s.move t { phase := .waiting } with nIdle := s.nIdle + 1 }
  else
    let nNow := max 1 (min nBatchSize (s.queue.length % 2 ^ 32 / (s.nTotal + s.nIdle + 1)))
    let start := s.queue.length - nNow
    { s.move t ⟨.working, s.queue.drop start, nNow, s.fAllOk⟩ with queue := s.queue.take start }

/-- The next step of a thread in `Loop`. -/
def loop (nBatchSize : Nat) (check : T → Bool) (s : CCheckQueue n T) (t : Option (Fin n)) :
    Option (CCheckQueue n T) :=
  match s.thread t with
  | ⟨.entering, _, _, _⟩ => some (loopHead nBatchSize { s with nTotal := s.nTotal + 1 } t)
  | ⟨.woken, _, _, _⟩ => some (loopHead nBatchSize { s with nIdle := s.nIdle - 1 } t)
  | ⟨.working, [], _, _⟩ => some (loopHead nBatchSize (s.cleanUp t) t)
  | ⟨.working, c :: rest, nNow, fOk⟩ =>
    some { s.move t ⟨.working, rest, nNow, fOk && check c⟩ with
      session := if fOk then { s.session with executed := c ::ₘ s.session.executed }
        else { s.session with skipped := c ::ₘ s.session.skipped } }
  | _ => none

inductive Action (n : Nat) (T : Type) where
  | add (vChecks : List T)
  | wait
  | loop (t : Option (Fin n))
  | wake (t : Option (Fin n))

/-- One step. A sleeping thread may wake up at any time, whether it was notified (as
workers are at the end of `Add`) or not. -/
def step (nBatchSize : Nat) (check : T → Bool) (s : CCheckQueue n T) :
    Action n T → Option (CCheckQueue n T)
  | .add vChecks => match (s.thread none).phase with
    | .outside => some { s with
        queue := s.queue ++ vChecks, nTodo := (s.nTodo + vChecks.length) % 2 ^ 32
        session := { s.session with added := s.session.added + vChecks } }
    | _ => none
  | .wait => match (s.thread none).phase with
    | .outside => some (s.move none { phase := .entering })
    | _ => none
  | .loop t => s.loop nBatchSize check t
  | .wake t => some (s.wake t)

/-! ### What holds in every state -/

/-- How many checks are queued, or taken and not yet accounted for. -/
def outstanding : Nat := s.queue.length + ∑ t, (s.thread t).nNow

variable {s}

structure Sound (check : T → Bool) (s : CCheckQueue n T) : Prop where
  todo : s.nTodo = s.outstanding
  bound : s.nTodo < 2 ^ 32
  kept : s.session.added =
    s.queue + ∑ t, ((s.thread t).vChecks : Multiset T) + s.session.executed + s.session.skipped
  idle : ∀ t, (s.thread t).nNow = 0 ∨ (s.thread t).phase ≠ .working →
    (s.thread t).nNow = 0 ∧ (s.thread t).vChecks = [] ∧ (s.thread t).fOk = true
  failed : s.session.Failed check ↔ s.fAllOk = false ∨ ∃ t, (s.thread t).fOk = false
  skip : s.session.skipped ≠ 0 → s.session.Failed check
  master : (s.thread none).phase = .waiting → s.nTodo ≠ 0 ∧ s.queue = []
  ended : ∀ e ∈ s.ended, e.1.Verdict check e.2

theorem sound_start : ({} : CCheckQueue n T).Sound check where
  todo := by simp [outstanding]
  bound := Nat.two_pow_pos 32
  kept := by simp
  idle := fun _ _ => ⟨rfl, rfl, rfl⟩
  failed := by simp [Session.Failed]
  skip := fun hne => absurd rfl hne
  master := nofun
  ended := nofun

/-- What the threads hold together, when one of them moves. -/
theorem sum_move {M : Type} [AddCommMonoid M] (f : CheckThread T → M) (s : CCheckQueue n T)
    (t : Option (Fin n)) (p : CheckThread T) :
    ∑ u, f ((s.move t p).thread u) + f (s.thread t) = ∑ u, f (s.thread u) + f p := by
  have hnew : (fun u => f ((s.move t p).thread u)) = update (f ∘ s.thread) t (f p) :=
    comp_update f s.thread t p
  rw [hnew, sum_update_of_mem (mem_univ t),
    sum_eq_add_sum_sdiff_singleton_of_mem (mem_univ t) (fun u => f (s.thread u))]
  ac_rfl

theorem exists_move (P : CheckThread T → Prop) (s : CCheckQueue n T) (t : Option (Fin n))
    (p : CheckThread T) : (∃ u, P ((s.move t p).thread u)) ↔ P p ∨ ∃ u ≠ t, P (s.thread u) := by
  constructor
  · rintro ⟨u, hu⟩
    by_cases h : u = t
    · exact .inl (by simpa [move, h] using hu)
    · exact .inr ⟨u, h, by simpa [move, h] using hu⟩
  · rintro (hp | ⟨u, h, hu⟩)
    · exact ⟨t, by simpa [move] using hp⟩
    · exact ⟨u, by simpa [move, h] using hu⟩

section
variable (h : s.Sound check)

include h

/-- A thread moves while the shared state changes; what is held only changes hands. -/
theorem Sound.moved (hthr : s'.thread = (s.move t p).thread) (hbound : s'.nTodo < 2 ^ 32)
    (htodo : s'.nTodo + s.queue.length + (s.thread t).nNow = s.nTodo + s'.queue.length + p.nNow)
    (hkept : s'.session.added +
        (s.queue + (s.thread t).vChecks + s.session.executed + s.session.skipped) =
      s.session.added + (s'.queue + p.vChecks + s'.session.executed + s'.session.skipped))
    (hidle : p.nNow = 0 ∨ p.phase ≠ .working → p.nNow = 0 ∧ p.vChecks = [] ∧ p.fOk = true)
    (hfail : (s.session.Failed check ↔
        s.fAllOk = false ∨ (s.thread t).fOk = false ∨ ∃ u ≠ t, (s.thread u).fOk = false) →
      (s'.session.Failed check ↔
        s'.fAllOk = false ∨ p.fOk = false ∨ ∃ u ≠ t, (s.thread u).fOk = false))
    (hskip : s'.session.skipped ≠ 0 → s'.session.Failed check)
    (hmaster : t ≠ none → (s.thread none).phase = .waiting → s'.nTodo ≠ 0 ∧ s'.queue = [])
    (hsleep : t = none → p.phase = .waiting → s'.nTodo ≠ 0 ∧ s'.queue = [])
    (hended : ∀ e ∈ s'.ended, e.1.Verdict check e.2) : s'.Sound check where
  todo := by
    have hsum := sum_move CheckThread.nNow s t p
    have htotal := h.todo
    rw [outstanding] at htotal ⊢
    rw [hthr]
    omega
  bound := hbound
  kept := by
    classical
    ext c
    have hsum := congrArg (Multiset.count c) (sum_move (fun p => (p.vChecks : Multiset T)) s t p)
    have hadded := congrArg (Multiset.count c) h.kept
    have hcnt := congrArg (Multiset.count c) hkept
    rw [hthr]
    simp only [Multiset.count_add] at hsum hadded hcnt ⊢
    omega
  idle u hu := by
    rw [hthr] at hu ⊢
    by_cases hut : u = t
    · simp only [move, hut, update_self] at hu ⊢
      exact hidle hu
    · simp only [move, update_of_ne hut] at hu ⊢
      exact h.idle u hu
  failed := by
    have hself := exists_move (fun p => p.fOk = false) s t (s.thread t)
    simp only [move, update_eq_self] at hself
    rw [hthr, exists_move fun p => p.fOk = false]
    exact hfail (h.failed.trans (or_congr_right hself))
  skip := hskip
  master hnone := by
    rw [hthr] at hnone
    by_cases ht : t = none
    · exact hsleep ht (by simpa [move, ht] using hnone)
    · exact hmaster ht (by simpa [move, Ne.symm ht] using hnone)
  ended := hended

/-- A thread without a batch goes to another phase. -/
theorem Sound.move (hphase : (s.thread t).phase ≠ .working)
    (hsleep : t = none → phase = .waiting → s.nTodo ≠ 0 ∧ s.queue = []) :
    (s.move t { phase }).Sound check := by
  obtain ⟨hnow, hcks, hok⟩ := h.idle t (.inr hphase)
  refine h.moved rfl h.bound ?_ ?_ (fun _ => ⟨rfl, rfl, rfl⟩) (fun hiff => ?_) h.skip
    (fun _ => h.master) hsleep h.ended
  · rw [hnow]
    rfl
  · rw [hcks]
    rfl
  · rw [hok] at hiff
    exact hiff

theorem Sound.counters (nIdle nTotal : Nat) : { s with nIdle, nTotal }.Sound check :=
  ⟨h.todo, h.bound, h.kept, h.idle, h.failed, h.skip, h.master, h.ended⟩

theorem Sound.wake (t : Option (Fin n)) : (s.wake t).Sound check := by
  unfold CCheckQueue.wake
  split
  · next hphase => exact h.move (by simp [hphase]) nofun
  · exact h

theorem Sound.nNow_le (t : Option (Fin n)) : (s.thread t).nNow ≤ s.nTodo := by
  have hle := single_le_sum (f := fun u => (s.thread u).nNow) (fun u _ => Nat.zero_le _)
    (mem_univ t)
  have htodo := h.todo
  rw [outstanding] at htodo
  omega

theorem Sound.account (hdone : (s.thread t).vChecks = [])
    (hmaster : t ≠ none → (s.thread none).phase = .waiting → s.nTodo ≠ (s.thread t).nNow) :
    { s.move t { phase := .entering } with
      fAllOk := s.fAllOk && (s.thread t).fOk
      nTodo := (s.nTodo + 2 ^ 32 - (s.thread t).nNow) % 2 ^ 32 }.Sound check := by
  have hle := h.nNow_le t
  have hbound := h.bound
  have htodo : (s.nTodo + 2 ^ 32 - (s.thread t).nNow) % 2 ^ 32 = s.nTodo - (s.thread t).nNow := by
    omega
  refine h.moved rfl (by dsimp only; omega) ?_ ?_ (fun _ => ⟨rfl, rfl, rfl⟩)
    (fun hiff => ?_) h.skip (fun ht hnone => ?_) nofun h.ended
  · dsimp only [CCheckQueue.move]
    omega
  · rw [hdone]
    rfl
  · simp only [Bool.and_eq_false_iff, or_assoc, Bool.true_eq_false, false_or]
    exact hiff
  · have hne := hmaster ht hnone
    exact ⟨by dsimp only; omega, (h.master hnone).2⟩

theorem Sound.cleanUp (hdone : (s.thread t).vChecks = []) : (s.cleanUp t).Sound check := by
  unfold CCheckQueue.cleanUp CCheckQueue.wake
  dsimp only
  split_ifs with hlast
  · split
    · next hphase =>
      have hsame : (s.move none { phase := .woken }).thread t = s.thread t :=
        update_of_ne hlast.2 ..
      have hwoken : (s.move none { phase := .woken }).Sound check := h.move (by simp [hphase]) nofun
      rw [← hsame] at hdone ⊢
      exact hwoken.account hdone (by simp [CCheckQueue.move])
    · next hphase => exact h.account hdone fun _ hwait => absurd hwait hphase
  · exact h.account hdone fun ht _ heq => hlast ⟨by omega, ht⟩

theorem Sound.all_idle (htodo : s.nTodo = 0) (t : Option (Fin n)) :
    (s.thread t).nNow = 0 ∧ (s.thread t).vChecks = [] ∧ (s.thread t).fOk = true :=
  h.idle t (.inl (Nat.le_zero.mp (htodo ▸ h.nNow_le t)))

theorem Sound.verdict (hq : s.queue = []) (htodo : s.nTodo = 0) :
    s.session.Verdict check s.fAllOk := by
  have hidle := h.all_idle htodo
  have hkept := h.kept
  have hfail := h.failed
  simp only [hq, hidle, Multiset.coe_nil, sum_const_zero, zero_add] at hkept
  simp only [hidle, Bool.true_eq_false, exists_false, or_false] at hfail
  refine ⟨hkept.symm, h.skip, ?_⟩
  rw [← Bool.not_eq_false, ← hfail, hkept]
  constructor
  · intro hok c hc
    have hskip : s.session.skipped = 0 := by_contra fun hne => hok (h.skip hne)
    rw [hskip, add_zero] at hc
    exact Bool.eq_true_of_not_eq_false fun hfalse => hok ⟨c, hc, hfalse⟩
  · rintro hall ⟨c, hc, hfalse⟩
    rw [hall c (Multiset.mem_add.mpr (.inl hc))] at hfalse
    cases hfalse

theorem Sound.loopHead (hphase : (s.thread t).phase ≠ .working) :
    (s.loopHead nBatchSize t).Sound check := by
  obtain ⟨hnow, hcks, hok⟩ := h.idle t (.inr hphase)
  unfold CCheckQueue.loopHead
  split_ifs with hemp hdone
  · obtain ⟨rfl, htodo⟩ := hdone
    have hq := isEmpty_iff.mp hemp
    have hverdict := h.verdict hq htodo
    refine h.moved rfl h.bound (by rw [hnow]; rfl) ?_ (fun _ => ⟨rfl, rfl, rfl⟩)
      (fun _ => ?_) (fun hne => absurd rfl hne) nofun nofun
      (forall_mem_cons.mpr ⟨hverdict, h.ended⟩)
    · simp [CCheckQueue.move, hcks, hq, hverdict.1]
    · simp [Session.Failed, h.all_idle htodo]
  · refine (h.move hphase fun ht _ => ?_).counters _ _
    exact ⟨fun htodo => hdone ⟨ht, htodo⟩, isEmpty_iff.mp hemp⟩
  · have hpos : 0 < s.queue.length := length_pos_iff.mpr (by simpa using hemp)
    generalize hnNow : max 1 (min nBatchSize _) = nNow
    have hbatch : 1 ≤ nNow ∧ nNow ≤ s.queue.length := by
      have hdiv := Nat.div_le_self (s.queue.length % 2 ^ 32) (s.nTotal + s.nIdle + 1)
      omega
    refine h.moved rfl h.bound ?_ ?_ (fun hnot => ?_) (fun hiff => ?_) h.skip
      (fun _ hnone => absurd (h.master hnone).2 (length_pos_iff.mp hpos)) nofun h.ended
    · simp only [CCheckQueue.move, hnow, length_take]
      omega
    · simp [CCheckQueue.move, hcks]
    · simp only [ne_eq, not_true_eq_false, or_false] at hnot
      omega
    · simpa [CCheckQueue.move, hok] using hiff

theorem Sound.loop (hstep : s.loop nBatchSize check t = some s') : s'.Sound check := by
  unfold CCheckQueue.loop at hstep
  split at hstep <;> cases hstep
  · next hthr => exact (h.counters _ _).loopHead (by simp [hthr])
  · next hthr => exact (h.counters _ _).loopHead (by simp [hthr])
  · next hthr =>
    exact (h.cleanUp (by rw [hthr])).loopHead (by simp [CCheckQueue.cleanUp, CCheckQueue.move])
  · next c rest nNow fOk hthr =>
    refine h.moved rfl h.bound (by rw [hthr]; rfl) ?_
      (fun hnot => ?_) (fun hiff => ?_) (fun hne => ?_) (fun _ => h.master) nofun h.ended
    · split_ifs <;> simp only [CCheckQueue.move, hthr, ← Multiset.cons_coe,
        Multiset.cons_add, Multiset.add_cons]
    · have hidle := h.idle t (by rw [hthr]; exact hnot)
      simp [hthr] at hidle
    · rw [hthr] at hiff
      cases fOk with
      | false => exact hiff
      | true =>
        simp only [Session.Failed, if_true, Multiset.mem_cons, exists_eq_or_imp] at hiff ⊢
        rw [hiff]
        tauto
    · cases fOk with
      | false => exact h.failed.mpr (.inr ⟨t, by rw [hthr]⟩)
      | true =>
        obtain ⟨d, hd, hfalse⟩ := h.skip hne
        exact ⟨d, Multiset.mem_cons_of_mem hd, hfalse⟩

end

/-- After the action, if it adds checks, fewer than `2 ^ 32` of them are outstanding. -/
def Counts (s : CCheckQueue n T) : Action n T → Prop
  | .add vChecks => s.outstanding + vChecks.length < 2 ^ 32
  | _ => True

theorem Sound.step {a : Action n T} (h : s.Sound check) (hcnts : s.Counts a)
    (hstep : s.step nBatchSize check a = some s') : s'.Sound check := by
  cases a with
  | add vChecks =>
    simp only [CCheckQueue.step] at hstep
    split at hstep <;> cases hstep
    next hphase =>
    change s.outstanding + _ < _ at hcnts
    rw [← h.todo] at hcnts
    rw [Nat.mod_eq_of_lt hcnts]
    refine h.moved (t := none) (p := s.thread none) ?_ hcnts ?_ ?_ (h.idle none) id h.skip
      (fun ht => absurd rfl ht) (fun _ hwait => by simp [hphase] at hwait) h.ended
    · simp [CCheckQueue.move]
    · simp only [length_append]
      omega
    · simp only [← Multiset.coe_add]
      ac_rfl
  | wait =>
    simp only [CCheckQueue.step] at hstep
    split at hstep <;> cases hstep
    next hphase => exact h.move (by simp [hphase]) nofun
  | loop thread => exact h.loop hstep
  | wake thread =>
    cases hstep
    exact h.wake thread

/-- A step that keeps the number of outstanding checks below `2 ^ 32`. -/
def Steps (nBatchSize : Nat) (check : T → Bool) (s : CCheckQueue n T) (a : Action n T)
    (s' : CCheckQueue n T) : Prop :=
  s.step nBatchSize check a = some s' ∧ s.Counts a

theorem Sound.run {as : List (Action n T)} (h : s.Sound check)
    (hrun : Run (Steps nBatchSize check) s as s') : s'.Sound check :=
  hrun.invariant h fun h hstep => h.step hstep.2 hstep.1

/-! ### Wait returns

A step of `Loop` uses up effort: a batch costs less than it weighed in the queue, and
the thread that wakes the master has done with its own. Only a wake-up from outside adds
some. -/

/-- How many steps of `Loop` can be made before all threads sleep. -/
def effort (s : CCheckQueue n T) : Nat := 3 * s.queue.length + ∑ t, (s.thread t).effort

theorem effort_move (s : CCheckQueue n T) (t : Option (Fin n)) (p : CheckThread T) :
    (s.move t p).effort + (s.thread t).effort = s.effort + p.effort := by
  have hsum := sum_move CheckThread.effort s t p
  rw [effort, effort, add_assoc, hsum, add_assoc]
  rfl

theorem effort_wake_le (s : CCheckQueue n T) (t : Option (Fin n)) :
    (s.wake t).effort ≤ s.effort + 1 := by
  unfold wake
  split
  · have hmove := effort_move s t { phase := .woken }
    have hwoken : ({ phase := .woken } : CheckThread T).effort = 1 := rfl
    omega
  · exact Nat.le_succ _

theorem effort_loopHead_lt (heffort : (s.thread t).effort = 1) :
    (s.loopHead nBatchSize t).effort < s.effort := by
  have hmove (p : CheckThread T) : (s.move t p).effort + 1 = s.effort + p.effort :=
    heffort ▸ effort_move s t p
  unfold loopHead
  split_ifs with hemp hdone
  · exact Nat.lt_of_succ_le (hmove { phase := .outside }).le
  · exact Nat.lt_of_succ_le (hmove { phase := .waiting }).le
  · have hpos : 0 < s.queue.length := length_pos_iff.mpr (by simpa using hemp)
    generalize hnNow : max 1 (min nBatchSize _) = nNow
    have hone : 1 ≤ nNow := by omega
    -- what leaves the queue weighs three there and one in the batch
    have hbatch := hmove ⟨.working, s.queue.drop (s.queue.length - nNow), nNow, s.fAllOk⟩
    simp only [effort, CheckThread.effort, length_drop, length_take, move] at hbatch ⊢
    omega

theorem effort_cleanUp_le (hthr : (s.thread t).effort = 2) : (s.cleanUp t).effort ≤ s.effort := by
  unfold cleanUp
  dsimp only
  have hentering : ({ phase := .entering } : CheckThread T).effort = 1 := rfl
  split_ifs with hlast
  · have hmove := effort_move (s.wake none) t { phase := .entering }
    have hwake := effort_wake_le s none
    have hsame : (s.wake none).thread t = s.thread t := by
      unfold wake
      split
      · exact update_of_ne hlast.2 ..
      · rfl
    rw [hsame] at hmove
    change ((s.wake none).move t { phase := .entering }).effort ≤ s.effort
    omega
  · have hmove := effort_move s t { phase := .entering }
    change (s.move t { phase := .entering }).effort ≤ s.effort
    omega

theorem effort_loop_lt (hstep : s.loop nBatchSize check t = some s') : s'.effort < s.effort := by
  unfold loop at hstep
  split at hstep <;> cases hstep
  · next hthr =>
    exact effort_loopHead_lt (s := { s with nTotal := _ }) (by simp only [hthr]; rfl)
  · next hthr =>
    exact effort_loopHead_lt (s := { s with nIdle := _ }) (by simp only [hthr]; rfl)
  · next hthr =>
    refine (effort_loopHead_lt ?_).trans_le (effort_cleanUp_le (by rw [hthr]; rfl))
    simp [cleanUp, move, CheckThread.effort]
  · next c rest nNow fOk hthr =>
    have hmove := effort_move s t ⟨.working, rest, nNow, fOk && check c⟩
    rw [hthr] at hmove
    simp only [CheckThread.effort, length_cons] at hmove
    change (s.move t ⟨.working, rest, nNow, fOk && check c⟩).effort < s.effort
    omega

/-- The session is the same still; if the master was in `Wait`, then it has not returned. -/
structure Ongoing (s₀ s : CCheckQueue n T) : Prop where
  phase : (s₀.thread none).phase ≠ .outside → (s.thread none).phase ≠ .outside
  ended : s.ended = s₀.ended
  added : s.session.added = s₀.session.added

/-- The session has ended, with a verdict on the checks that had been added. -/
def Returned (s₀ s : CCheckQueue n T) : Prop :=
  ∃ e, e :: s₀.ended <:+ s.ended ∧ e.1.added = s₀.session.added

section
variable {s₀ : CCheckQueue n T} (h : s₀.Ongoing s)

include h

theorem Ongoing.moved (hthr : s'.thread = (s.move t p).thread) (hp : p.phase ≠ .outside)
    (hended : s'.ended = s.ended) (hadded : s'.session.added = s.session.added) :
    s₀.Ongoing s' := by
  refine ⟨fun hin => ?_, hended.trans h.ended, hadded.trans h.added⟩
  rw [hthr]
  by_cases ht : t = none
  · simpa [move, ht] using hp
  · simpa [move, Ne.symm ht] using h.phase hin

theorem Ongoing.counters (nIdle nTotal : Nat) : s₀.Ongoing { s with nIdle, nTotal } :=
  ⟨h.phase, h.ended, h.added⟩

variable (t)

theorem Ongoing.wake : s₀.Ongoing (s.wake t) := by
  unfold CCheckQueue.wake
  split
  · exact h.moved rfl nofun rfl rfl
  · exact h

theorem Ongoing.cleanUp : s₀.Ongoing (s.cleanUp t) := by
  unfold CCheckQueue.cleanUp
  dsimp only
  split_ifs
  · exact (h.wake none).moved rfl nofun rfl rfl
  · exact h.moved rfl nofun rfl rfl

theorem Ongoing.loopHead :
    s₀.Ongoing (s.loopHead nBatchSize t) ∨ s₀.Returned (s.loopHead nBatchSize t) := by
  unfold CCheckQueue.loopHead
  split_ifs
  · exact .inr ⟨(s.session, s.fAllOk), by simp [h.ended], h.added⟩
  · exact .inl (h.moved rfl nofun rfl rfl)
  · exact .inl (h.moved rfl nofun rfl rfl)

variable {t}

theorem Ongoing.loop (hstep : s.loop nBatchSize check t = some s') :
    s₀.Ongoing s' ∨ s₀.Returned s' := by
  unfold CCheckQueue.loop at hstep
  split at hstep <;> cases hstep
  · exact (h.counters _ _).loopHead t
  · exact (h.counters _ _).loopHead t
  · exact (h.cleanUp t).loopHead t
  · refine .inl (h.moved rfl nofun rfl ?_)
    dsimp only
    split_ifs <;> rfl

end

theorem ongoing_refl (s : CCheckQueue n T) : s.Ongoing s := ⟨id, rfl, rfl⟩

theorem step_ended {a : Action n T} (hstep : s.step nBatchSize check a = some s') :
    s.ended <:+ s'.ended := by
  cases a with
  | add | wait =>
    simp only [step] at hstep
    split at hstep <;> cases hstep
    exact suffix_rfl
  | loop t =>
    rcases (ongoing_refl s).loop hstep with h | ⟨e, hsuff, -⟩
    · rw [h.ended]
    · exact (suffix_cons ..).trans hsuff
  | wake t =>
    cases hstep
    rw [((ongoing_refl s).wake t).ended]

def Action.isLoop : Action n T → Bool
  | .loop _ => true
  | _ => false

def Action.isWake : Action n T → Bool
  | .wake _ => true
  | _ => false

/-- As long as the master has not returned, every step of `Loop` has been paid for. -/
theorem run_paid {bs : List (Action n T)} (hin : (s.thread none).phase ≠ .outside)
    (hrun : Run (Steps nBatchSize check) s bs s') :
    s.Ongoing s' ∧ bs.countP Action.isLoop + s'.effort ≤ s.effort + bs.countP Action.isWake ∨
      s.Returned s' := by
  induction hrun with
  | nil => exact .inl ⟨ongoing_refl s, by simp⟩
  | @snoc u s' bs b _ hlast ih =>
    rcases ih with ⟨hwait, hpaid⟩ | ⟨e, hsuff, hadded⟩
    · rw [countP_append, countP_append]
      cases b with
      | add | wait =>
        have hstep := hlast.1
        simp only [step] at hstep
        split at hstep
        · next hphase => exact absurd hphase (hwait.phase hin)
        · cases hstep
      | loop t =>
        refine (hwait.loop hlast.1).imp_left fun h => ⟨h, ?_⟩
        have hlt := effort_loop_lt hlast.1
        simp only [countP_singleton, Action.isLoop, Action.isWake, if_true, Bool.false_eq_true,
          if_false]
        omega
      | wake t =>
        cases hlast.1
        have hle := effort_wake_le u t
        refine .inl ⟨hwait.wake t, ?_⟩
        simp only [countP_singleton, Action.isLoop, Action.isWake, if_true, Bool.false_eq_true,
          if_false]
        omega
    · exact .inr ⟨e, hsuff.trans (step_ended hlast.1), hadded⟩

theorem loop_isSome (hphase : (s.thread t).phase ≠ .outside ∧ (s.thread t).phase ≠ .waiting) :
    ∃ s', s.loop nBatchSize check t = some s' := by
  rcases hthr : s.thread t with ⟨phase, vChecks, nNow, fOk⟩
  rw [loop, hthr]
  rw [hthr] at hphase
  cases phase with
  | outside => exact absurd rfl hphase.1
  | waiting => exact absurd rfl hphase.2
  | entering | woken => exact ⟨_, rfl⟩
  | working => cases vChecks <;> exact ⟨_, rfl⟩

/-- The master does not wait in vain: when it sleeps, somebody works for it. -/
theorem Sound.can_step (h : s.Sound check) (nBatchSize : Nat)
    (hin : (s.thread none).phase ≠ .outside) : ∃ t s', s.loop nBatchSize check t = some s' := by
  by_cases hwait : (s.thread none).phase = .waiting
  · obtain ⟨htodo, hq⟩ := h.master hwait
    rw [h.todo, outstanding, hq, length_nil, Nat.zero_add] at htodo
    obtain ⟨t, -, ht⟩ := exists_ne_zero_of_sum_ne_zero htodo
    have hworking : (s.thread t).phase = .working :=
      by_contra fun hne => ht (h.idle t (.inr hne)).1
    exact ⟨t, loop_isSome (by simp [hworking])⟩
  · exact ⟨none, loop_isSome ⟨hin, hwait⟩⟩

/-- Whatever the threads do and in whatever order: `nTodo` counts the checks that are
queued or taken; every session that has ended had the verdict of its checks run one by
one, with none left; at every time checks were run at most once, and skipped only after
another one failed; and the master does not sleep through its wake-up. While it is in
`Wait` some thread can go on, and it has returned with a verdict on the checks added once
`Loop` has made `effort` steps, and one more for every wake-up. -/
theorem parallel_checks_sequential_verdict {as : List (Action n T)}
    (hrun : Run (Steps nBatchSize check) {} as s) :
    s.nTodo = s.outstanding ∧ (∀ e ∈ s.ended, e.1.Verdict check e.2) ∧
      s.session.executed + s.session.skipped ≤ s.session.added ∧
      (s.session.skipped ≠ 0 → s.session.Failed check) ∧
      ((s.thread none).phase = .waiting → s.nTodo ≠ 0 ∧ s.queue = []) ∧
      ((s.thread none).phase ≠ .outside → (∃ t s', s.loop nBatchSize check t = some s') ∧
        ∀ bs s', Run (Steps nBatchSize check) s bs s' →
          s.effort + bs.countP Action.isWake ≤ bs.countP Action.isLoop → s.Returned s') := by
  have h : s.Sound check := sound_start.run hrun
  refine ⟨h.todo, h.ended, ?_, h.skip, h.master, fun hin => ⟨h.can_step nBatchSize hin, ?_⟩⟩
  · rw [h.kept, add_assoc (_ + _)]
    exact Multiset.le_add_left ..
  · intro bs s' hrest hsteps
    rcases run_paid hin hrest with ⟨hwait, hpaid⟩ | hret
    · -- there is no effort left, yet some thread could go on
      obtain ⟨t, u, hstep⟩ := (h.run hrest).can_step nBatchSize (hwait.phase hin)
      have hlt := effort_loop_lt hstep
      omega
    · exact hret

/-- The worker has taken the only check when the master calls `Wait`. -/
def taken : CCheckQueue 1 Bool where
  nTotal := 1
  nTodo := 1
  thread := update (update ({} : CCheckQueue 1 Bool).thread (some 0) ⟨.working, [false], 1, true⟩)
    none { phase := .entering }
  session := { added := 0 + [false] }

/-- A check that fails and then, in a second session, one that does not. The first
verdict is there when the threads have made the four steps that were ahead of them. -/
theorem parallel_checks_sequential_verdict_sample : ∃ s s' : CCheckQueue 1 Bool,
    Run (Steps 1 id) {} [.add [false], .loop (some 0), .wait] taken ∧ taken.effort = 4 ∧
    Run (Steps 1 id) taken [.loop none, .loop (some 0), .loop (some 0), .loop none] s ∧
    taken.Returned s ∧
    Run (Steps 1 id) {} [.add [false], .loop (some 0), .wait, .loop none, .loop (some 0),
      .loop (some 0), .loop none, .add [true], .wait, .loop none, .loop none, .loop none] s' ∧
    s'.ended.map Prod.snd = [true, false] ∧ ∀ e ∈ s'.ended, e.1.Verdict id e.2 := by
  have hwait : Run (Steps 1 id) {} ([] ++ [.add [false]] ++ [.loop (some 0)] ++ [.wait]) taken :=
    ((Run.nil.snoc ⟨rfl, by simp [Counts, outstanding]⟩).snoc ⟨rfl, trivial⟩).snoc ⟨rfl, trivial⟩
  have hreturn : Run (Steps 1 id) taken
      ([] ++ [.loop none] ++ [.loop (some 0)] ++ [.loop (some 0)] ++ [.loop none]) _ :=
    (((Run.nil.snoc ⟨rfl, trivial⟩).snoc ⟨rfl, trivial⟩).snoc ⟨rfl, trivial⟩).snoc ⟨rfl, trivial⟩
  have hall : Run (Steps 1 id) {} ([] ++ [.add [false]] ++ [.loop (some 0)] ++ [.wait] ++
      [.loop none] ++ [.loop (some 0)] ++ [.loop (some 0)] ++ [.loop none] ++
      [.add [true]] ++ [.wait] ++ [.loop none] ++ [.loop none] ++ [.loop none]) _ :=
    .snoc (.snoc (.snoc (.snoc (.snoc (.snoc (.snoc (.snoc (.snoc hwait ⟨rfl, trivial⟩)
      ⟨rfl, trivial⟩) ⟨rfl, trivial⟩) ⟨rfl, trivial⟩) ⟨rfl, show 1 < 2 ^ 32 by decide⟩)
      ⟨rfl, trivial⟩) ⟨rfl, trivial⟩) ⟨rfl, trivial⟩) ⟨rfl, trivial⟩
  have heffort : taken.effort = 4 := rfl
  have hprogress := (parallel_checks_sequential_verdict hwait).2.2.2.2.2 nofun
  exact ⟨_, _, hwait, heffort, hreturn, hprogress.2 _ _ hreturn (by rw [heffort]; rfl), hall, rfl,
    (parallel_checks_sequential_verdict hall).2.1⟩


/-- The counter is an `unsigned int`: it shows nothing when `2 ^ 32` checks are queued. -/
theorem parallel_checks_miscounted : ∃ s : CCheckQueue 0 Unit,
    Run (fun s a s' => s.step 1 (fun _ => true) a = some s') {}
      [.add (replicate (2 ^ 32) ())] s ∧ s.nTodo = 0 ∧ s.outstanding = 2 ^ 32 := by
  have hrun : ∀ vChecks : List Unit, ∃ s : CCheckQueue 0 Unit,
      Run (fun s a s' => s.step 1 (fun _ => true) a = some s') {} [.add vChecks] s ∧
        s.nTodo = vChecks.length % 2 ^ 32 ∧ s.outstanding = vChecks.length := fun vChecks =>
    ⟨_, Run.nil.snoc rfl, by simp, by simp [outstanding]⟩
  obtain ⟨s, hadd, htodo, hqueued⟩ := hrun (replicate (2 ^ 32) ())
  rw [length_replicate] at htodo hqueued
  exact ⟨s, hadd, htodo.trans (Nat.mod_self _), hqueued⟩

end CCheckQueue
end Lithium
