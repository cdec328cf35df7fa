import Lithium.Lib.Transition

/-!
# Callbacks of the validation interface

`SingleThreadedSchedulerClient` runs callbacks one after the other on a scheduler
that may have many threads. The signals of `CMainSignals` are such callbacks,
each of which walks the list of subscribers, except for `BlockChecked` and
`NewPoWValidBlock`, which tell the subscribers at once. Every critical section is one
step here, and the steps of all threads interleave. Of the scheduler's tasks only the calls of
`ProcessQueue` matter; a thread that serves the scheduler may take one at any
time, and other tasks are code of the thread's own.
-/

namespace Lithium
open Lib List Function

/-- What a thread does. A callback is known by the number of its signal, and has
told the subscribers that stand before `next` in the list. `raii` is the destructor
that runs when the callback has returned or thrown. -/
inductive Frame where
  | own
  | serving
  | processQueue
  | callback (signal next : Nat)
  | raii (thrown : Bool)

/-- Where a thread is in `AddToProcessQueue` or in `MaybeScheduleProcessQueue`. -/
inductive QueueCall where
  | add
  | maybe
  | schedule

structure SchedulerThread where
  frame : Frame := .own
  call : Option QueueCall := none

/-- Code of the thread's own, or that of a callback. -/
def SchedulerThread.userCode : SchedulerThread → Bool
  | ⟨.own, none⟩ | ⟨.callback _ _, none⟩ => true
  | _ => false

/-- The client, the calls of `ProcessQueue` in the scheduler, and the threads. Beside
them stand the numbers of the callbacks added and started, and for every
subscriber the signals it has seen and whether they came from a callback. -/
structure SingleThreadedSchedulerClient where
  callbacksPending : List Nat := []
  areCallbacksRunning : Bool := false
  scheduled : Nat := 0
  thread : Nat → SchedulerThread := fun _ => {}
  signals : Nat := 0
  added : List Nat := []
  started : List Nat := []
  seen : Nat → List (Nat × Bool) := fun _ => []

namespace SingleThreadedSchedulerClient
variable {s s' : SingleThreadedSchedulerClient} {t : Nat} {v : SchedulerThread}

section
variable (s : SingleThreadedSchedulerClient)

def move (t : Nat) (v : SchedulerThread) : SingleThreadedSchedulerClient :=
  { s with thread := update s.thread t v }

def see (subscriber signal : Nat) (queued : Bool) : Nat → List (Nat × Bool) :=
  update s.seen subscriber (s.seen subscriber ++ [(signal, queued)])

/-- The next step of a thread that has called `AddToProcessQueue`,
`MaybeScheduleProcessQueue` or `ProcessQueue`, or that serves the scheduler. -/
def advance (t : Nat) : Option SingleThreadedSchedulerClient :=
  match s.thread t with
  | ⟨frame, some .add⟩ => some { s.move t ⟨frame, some .maybe⟩ with
      callbacksPending := s.callbacksPending ++ [s.signals], added := s.added ++ [s.signals]
      signals := s.signals + 1 }
  | ⟨frame, some .maybe⟩ =>
    if s.areCallbacksRunning || s.callbacksPending.isEmpty then some (s.move t ⟨frame, none⟩)
    else some (s.move t ⟨frame, some .schedule⟩)
  | ⟨frame, some .schedule⟩ => some { s.move t ⟨frame, none⟩ with scheduled := s.scheduled + 1 }
  | ⟨.serving, none⟩ =>
    if s.scheduled = 0 then none
    else some { s.move t ⟨.processQueue, none⟩ with scheduled := s.scheduled - 1 }
  | ⟨.processQueue, none⟩ =>
    match s.areCallbacksRunning, s.callbacksPending with
    | false, signal :: rest => some { s.move t ⟨.callback signal 0, none⟩ with
        areCallbacksRunning := true, callbacksPending := rest, started := s.started ++ [signal] }
    | _, _ => some (s.move t ⟨.serving, none⟩)
  | ⟨.raii thrown, none⟩ =>
    -- an exception goes on to `serviceQueue`, and the thread serves no more
    some { s.move t ⟨if thrown then .own else .serving, some .maybe⟩ with
      areCallbacksRunning := false }
  | _ => none

end

inductive Action where
  | advance (t : Nat)
  | signal (t : Nat)
  | direct (t subscriber : Nat)
  | notify (t subscriber : Nat)
  | finish (t : Nat) (thrown : Bool)
  | serve (t : Nat)
  | leave (t : Nat)

/-- One step. A callback tells the subscribers in the order of the list, and may throw
at any time. -/
def step (s : SingleThreadedSchedulerClient) : Action → Option SingleThreadedSchedulerClient
  | .advance t => s.advance t
  | .signal t =>
    if (s.thread t).userCode then some (s.move t ⟨(s.thread t).frame, some .add⟩) else none
  | .direct t subscriber =>
    if (s.thread t).userCode then
      some { s with seen := s.see subscriber s.signals false, signals := s.signals + 1 }
    else none
  | .notify t subscriber => match s.thread t with
    | ⟨.callback signal next, none⟩ =>
      if subscriber < next then none
      else some { s.move t ⟨.callback signal (subscriber + 1), none⟩ with
        seen := s.see subscriber signal true }
    | _ => none
  | .finish t thrown => match s.thread t with
    | ⟨.callback _ _, none⟩ => some (s.move t ⟨.raii thrown, none⟩)
    | _ => none
  | .serve t => match s.thread t with
    | ⟨.own, none⟩ => some (s.move t ⟨.serving, none⟩)
    | _ => none
  | .leave t => match s.thread t with
    | ⟨.serving, none⟩ => some (s.move t ⟨.own, none⟩)
    | _ => none

/-! ### What holds in every state -/

end SingleThreadedSchedulerClient

/-- The thread has set the flag of the running callback. -/
def Frame.holds : Frame → Bool
  | callback _ _ | raii _ => true
  | _ => false

variable {signal : Nat}

theorem holds_of_callback {f : Frame} {next : Nat} (h : f = .callback signal next) :
    f.holds = true := by
  rw [h, Frame.holds]

/-- `ProcessQueue` was taken from the scheduler, or is about to be scheduled if there
is need. -/
def SchedulerThread.Due (v : SchedulerThread) : Prop :=
  v.frame = .processQueue ∨ v.call = some .maybe ∨ v.call = some .schedule

namespace SingleThreadedSchedulerClient
variable {s s' : SingleThreadedSchedulerClient} {t : Nat} {v : SchedulerThread}

variable (s)

/-- A pending callback is not forgotten. -/
def Live : Prop := s.callbacksPending ≠ [] →
    s.areCallbacksRunning = true ∨ s.scheduled ≠ 0 ∨ ∃ t, (s.thread t).Due

structure Sound (s : SingleThreadedSchedulerClient) : Prop where
  order : s.added = s.started ++ s.callbacksPending
  numbered : s.added.Pairwise (· < ·) ∧ ∀ i ∈ s.added, i < s.signals
  running : s.areCallbacksRunning = true ↔ ∃ t, (s.thread t).frame.holds = true
  single : ∀ t u, (s.thread t).frame.holds = true → (s.thread u).frame.holds = true → t = u
  live : s.Live
  current : ∀ t signal next, (s.thread t).frame = .callback signal next →
    s.started.getLast? = some signal ∧ ∀ e, next ≤ e → (signal, true) ∉ s.seen e
  heard : ∀ e, (∀ i, (i, true) ∈ s.seen e → i ∈ s.started) ∧
    ((s.seen e).filter (·.2)).Pairwise (·.1 < ·.1)

theorem thread_move (t : Nat) (v : SchedulerThread)
    (u : Nat) : (s.move t v).thread u = if u = t then v else s.thread u :=
  update_apply ..

variable {s}

/-- A thread goes on without taking or giving back the flag. -/
theorem Sound.moved (h : s.Sound) (hhold : v.frame.holds = (s.thread t).frame.holds)
    (hcurrent : ∀ signal next, v.frame = .callback signal next →
      ∃ k ≤ next, (s.thread t).frame = .callback signal k)
    (hlive : (s.thread t).Due → (s.move t v).Live) : (s.move t v).Sound := by
  have hsame : ∀ u, ((s.move t v).thread u).frame.holds = (s.thread u).frame.holds := by
    intro u
    rw [thread_move]
    split_ifs with hu
    · rw [hhold, hu]
    · rfl
  refine ⟨h.order, h.numbered, ?_, ?_, fun hpend => ?_, fun u signal next hu => ?_, h.heard⟩
  · simp only [hsame]
    exact h.running
  · simp only [hsame]
    exact h.single
  · rcases h.live hpend with hrun | hsched | ⟨u, hu⟩
    · exact .inl hrun
    · exact .inr (.inl hsched)
    · by_cases hut : u = t
      · exact hlive (hut ▸ hu) hpend
      · exact .inr (.inr ⟨u, by simpa [thread_move, hut] using hu⟩)
  · rw [thread_move] at hu
    split_ifs at hu
    · obtain ⟨k, hk, hold⟩ := hcurrent signal next hu
      exact (h.current t signal k hold).imp_right fun hseen e he => hseen e (Nat.le_trans hk he)
    · exact h.current u signal next hu

variable {frame : Frame}

/-- A thread goes on in the functions it has called. -/
theorem Sound.called {call : Option QueueCall} (h : s.Sound) (hframe : (s.thread t).frame = frame)
    (hlive : (s.thread t).Due → (s.move t ⟨frame, call⟩).Live) : (s.move t ⟨frame, call⟩).Sound :=
  h.moved (by rw [hframe]) (fun _ k hv => ⟨k, Nat.le_refl k, hframe.trans hv⟩) hlive

theorem live_move (hdue : v.Due) : (s.move t v).Live := fun _ =>
  .inr (.inr ⟨t, by simpa [thread_move] using hdue⟩)

theorem not_due (hthr : s.thread t = ⟨frame, none⟩) (hframe : frame ≠ .processQueue) :
    ¬ (s.thread t).Due := by
  simp [hthr, hframe, SchedulerThread.Due]

theorem Sound.rescheduled (h : s.Sound) {k : Nat}
    (hlive : { s with scheduled := k }.Live) : { s with scheduled := k }.Sound :=
  ⟨h.order, h.numbered, h.running, h.single, hlive, h.current, h.heard⟩

/-- `ProcessQueue` takes the first callback. -/
theorem Sound.start {rest : List Nat} (h : s.Sound) (hrunning : s.areCallbacksRunning = false)
    (hpend : s.callbacksPending = signal :: rest) : { s.move t ⟨.callback signal 0, none⟩ with
      areCallbacksRunning := true, callbacksPending := rest
      started := s.started ++ [signal] }.Sound := by
  have hfree : ∀ u, (s.thread u).frame.holds = false := fun u =>
    Bool.eq_false_iff.mpr fun hu => by simp [h.running.mpr ⟨u, hu⟩] at hrunning
  have hnew : signal ∉ s.started := by
    have hpair := h.numbered.1
    rw [h.order, hpend, pairwise_append] at hpair
    exact fun hmem => Nat.lt_irrefl _ (hpair.2.2 signal hmem signal mem_cons_self)
  have honly : ∀ u, ((s.move t ⟨.callback signal 0, none⟩).thread u).frame.holds = true →
    u = t := by
    intro u hu
    by_contra hne
    simp [thread_move, hne, hfree] at hu
  refine ⟨?_, h.numbered, ?_, fun u w hu hw => (honly u hu).trans (honly w hw).symm,
    fun _ => .inl rfl, fun u k next hu => ?_, fun e => ⟨fun i hi => ?_, (h.heard e).2⟩⟩
  · simpa [move, hpend] using h.order
  · exact iff_of_true rfl ⟨t, by simp [thread_move, Frame.holds]⟩
  · obtain rfl := honly u (holds_of_callback hu)
    simp only [thread_move, if_true, Frame.callback.injEq] at hu
    obtain ⟨rfl, rfl⟩ := hu
    exact ⟨getLast?_concat, fun e _ hmem => hnew ((h.heard e).1 _ hmem)⟩
  · exact mem_append_left _ ((h.heard e).1 i hi)

/-- The destructor gives the flag back. -/
theorem Sound.release (h : s.Sound) (ht : (s.thread t).frame.holds = true)
    (hframe : frame.holds = false) :
    { s.move t ⟨frame, some .maybe⟩ with areCallbacksRunning := false }.Sound := by
  have hfree : ∀ u, ((s.move t ⟨frame, some .maybe⟩).thread u).frame.holds = false := by
    intro u
    rw [thread_move]
    split_ifs with hu
    · exact hframe
    · exact Bool.eq_false_iff.mpr fun hhold => hu (h.single u t hhold ht)
  refine ⟨h.order, h.numbered, ?_, fun u _ hu => ?_, fun _ => .inr (.inr ⟨t, ?_⟩),
    fun u signal next hu => ?_, h.heard⟩
  · simp [hfree]
  · rw [hfree u] at hu
    cases hu
  · simp [thread_move, SchedulerThread.Due]
  · exact absurd (holds_of_callback hu) (by rw [hfree u]; nofun)

theorem Sound.advanced (h : s.Sound) (hstep : s.advance t = some s') : s'.Sound := by
  unfold advance at hstep
  split at hstep
  · next frame hthr =>
    cases hstep
    have hmoved : (s.move t ⟨frame, some .maybe⟩).Sound :=
      h.called (by rw [hthr]) fun _ => live_move (.inr (.inl rfl))
    refine ⟨?_, ⟨?_, fun i hi => ?_⟩, hmoved.running, hmoved.single,
      fun _ => .inr (.inr ⟨t, by simp [thread_move, SchedulerThread.Due]⟩), hmoved.current,
        hmoved.heard⟩
    · simp [move, h.order]
    · exact pairwise_append.mpr ⟨h.numbered.1, pairwise_singleton .., fun i hi j hj =>
        mem_singleton.mp hj ▸ h.numbered.2 i hi⟩
    · rcases mem_append.mp hi with hi | hi
      · exact Nat.lt_succ_of_lt (h.numbered.2 i hi)
      · exact mem_singleton.mp hi ▸ Nat.lt_succ_self _
  · next frame hthr =>
    split_ifs at hstep with hnone
    · cases hstep
      refine h.called (by rw [hthr]) fun _ hpend => .inl ?_
      change s.callbacksPending ≠ [] at hpend
      change s.areCallbacksRunning = true
      simpa [hpend] using hnone
    · cases hstep
      exact h.called (by rw [hthr]) fun _ => live_move (.inr (.inr rfl))
  · next frame hthr =>
    cases hstep
    exact (h.rescheduled fun _ => .inr (.inl (Nat.succ_ne_zero _))).called (by rw [hthr])
      fun _ _ => .inr (.inl (Nat.succ_ne_zero _))
  · next hthr =>
    split_ifs at hstep with hnone
    cases hstep
    have hmoved : (s.move t ⟨.processQueue, none⟩).Sound :=
      h.moved (by rw [hthr]; rfl) nofun fun _ => live_move (.inl rfl)
    exact hmoved.rescheduled fun _ => .inr (.inr ⟨t, by simp [thread_move, SchedulerThread.Due]⟩)
  · next hthr =>
    split at hstep
    · next signal rest hrunning hpend =>
      cases hstep
      exact h.start hrunning hpend
    · next hnot =>
      cases hstep
      refine h.moved (by rw [hthr]; rfl) nofun fun _ hpend => .inl ?_
      obtain ⟨signal, rest, hcons⟩ := exists_cons_of_ne_nil hpend
      exact eq_true_of_ne_false fun hfalse => hnot signal rest hfalse hcons
  · next thrown hthr =>
    cases hstep
    exact h.release (by rw [hthr]; rfl) (by cases thrown <;> rfl)
  · cases hstep

theorem mem_see {e k i : Nat} {q : Bool} {subscriber : Nat} : (i, true) ∈ s.see subscriber k q e ↔
      (i, true) ∈ s.seen e ∨ e = subscriber ∧ i = k ∧ q = true := by
  rw [see, update_apply]
  split_ifs with h
  · simp [h, eq_comm]
  · simp [h]

theorem Sound.told (h : s.Sound) (subscriber : Nat) :
    { s with seen := s.see subscriber s.signals false, signals := s.signals + 1 }.Sound := by
  refine ⟨h.order, ⟨h.numbered.1, fun i hi => Nat.lt_succ_of_lt (h.numbered.2 i hi)⟩, h.running,
    h.single, h.live, fun u signal next hu => ?_, fun e => ⟨fun i hi => ?_, ?_⟩⟩
  · exact (h.current u signal next hu).imp_right fun hseen e he =>
      by simpa [mem_see] using hseen e he
  · exact (h.heard e).1 i (by simpa [mem_see] using hi)
  · dsimp only [see]
    rw [update_apply]
    split_ifs with he
    · simpa [he] using (h.heard subscriber).2
    · exact (h.heard e).2

/-- A callback tells one more subscriber. -/
theorem Sound.notified {subscriber : Nat} (h : s.Sound)
    (hframe : (s.thread t).frame = .callback signal (subscriber + 1))
    (hunseen : (signal, true) ∉ s.seen subscriber) :
    { s with seen := s.see subscriber signal true }.Sound := by
  have hlast := (h.current t _ _ hframe).1
  refine ⟨h.order, h.numbered, h.running, h.single, h.live, fun u k next hu => ?_,
    fun e => ⟨fun i hi => ?_, ?_⟩⟩
  · obtain rfl := h.single u t (holds_of_callback hu) (holds_of_callback hframe)
    obtain ⟨rfl, rfl⟩ := Frame.callback.inj (hu.symm.trans hframe)
    refine (h.current u _ _ hframe).imp_right fun hseen e he hmem => ?_
    rcases mem_see.mp hmem with hmem | ⟨rfl, -⟩
    · exact hseen e he hmem
    · exact Nat.not_succ_le_self e he
  · rcases mem_see.mp hi with hi | ⟨-, rfl, -⟩
    · exact (h.heard e).1 i hi
    · exact mem_of_getLast? hlast
  · dsimp only [see]
    rw [update_apply]
    split_ifs with he
    · rw [filter_append]
      refine pairwise_append.mpr ⟨(h.heard subscriber).2, pairwise_singleton ..,
        fun x hx y hy => ?_⟩
      obtain ⟨hx, hqueued⟩ := mem_filter.mp hx
      obtain rfl := mem_singleton.mp hy
      have hxs : (x.1, true) ∈ s.seen subscriber := hqueued ▸ hx
      have hstart := (h.heard subscriber).1 x.1 hxs
      obtain ⟨earlier, heq⟩ := getLast?_eq_some_iff.mp hlast
      have hpair := h.numbered.1
      rw [h.order, heq, pairwise_append, pairwise_append] at hpair
      rw [heq, mem_append, mem_singleton] at hstart
      rcases hstart with hmem | hsame
      · exact hpair.1.2.2 x.1 hmem signal (mem_singleton_self _)
      · exact absurd (hsame ▸ hxs) hunseen
    · exact (h.heard e).2

theorem Sound.stepped {a : Action} (h : s.Sound) (hstep : s.step a = some s') : s'.Sound := by
  cases a with
  | advance t => exact h.advanced hstep
  | signal t =>
    simp only [step] at hstep
    split_ifs at hstep with hcode
    cases hstep
    refine h.called rfl fun hdue => absurd hdue ?_
    unfold SchedulerThread.userCode at hcode
    split at hcode
    · next hthr => exact not_due hthr nofun
    · next hthr => exact not_due hthr nofun
    · cases hcode
  | direct t subscriber =>
    simp only [step] at hstep
    split_ifs at hstep
    cases hstep
    exact h.told subscriber
  | notify t subscriber =>
    simp only [step] at hstep
    split at hstep
    · next signal next hthr =>
      split_ifs at hstep with hlt
      cases hstep
      have hframe : (s.thread t).frame = .callback signal next := by rw [hthr]
      have hmoved : (s.move t ⟨.callback signal (subscriber + 1), none⟩).Sound := by
        refine h.moved (by rw [hthr]; rfl) (fun k m hv => ?_) fun hdue =>
          absurd hdue (not_due hthr nofun)
        obtain ⟨rfl, rfl⟩ := Frame.callback.inj hv
        exact ⟨next, by omega, hframe⟩
      exact hmoved.notified (t := t) (by rw [thread_move, if_pos rfl])
        ((h.current t signal next hframe).2 subscriber (Nat.not_lt.mp hlt))
    · cases hstep
  | finish t thrown | serve t | leave t =>
    simp only [step] at hstep
    split at hstep <;> cases hstep
    next hthr =>
    exact h.moved (by rw [hthr]; rfl) nofun fun hdue => absurd hdue (not_due hthr nofun)

theorem sound_start : ({} : SingleThreadedSchedulerClient).Sound where
  order := rfl
  numbered := ⟨.nil, nofun⟩
  running := ⟨nofun, nofun⟩
  single := nofun
  live := fun hne => absurd rfl hne
  current := nofun
  heard := fun _ => ⟨nofun, .nil⟩

/-- Whatever the threads do: the callbacks start in the order in which they were added, each
at most once; no two run at the same time; a pending callback waits for one that runs, or for
a call of `ProcessQueue` that is scheduled, under way or about to be scheduled; and every
subscriber sees the queued signals in the order in which they were given. -/
theorem callbacks_run_in_order {as : List Action}
    (hrun : Run (fun s a s' => s.step a = some s') {} as s) :
    (s.started <+: s.added ∧ s.added.Pairwise (· < ·)) ∧
      (∀ t u, (s.thread t).frame.holds = true → (s.thread u).frame.holds = true → t = u) ∧
      (s.callbacksPending ≠ [] → (∃ t, (s.thread t).frame.holds = true) ∨ s.scheduled ≠ 0 ∨
        ∃ t, (s.thread t).Due) ∧ ∀ e, ((s.seen e).filter (·.2)).Pairwise (·.1 < ·.1) := by
  have h : s.Sound := hrun.invariant sound_start fun h hstep => h.stepped hstep
  refine ⟨⟨?_, h.numbered.1⟩, h.single, ?_, fun e => (h.heard e).2⟩
  · exact ⟨s.callbacksPending, h.order.symm⟩
  · rw [← h.running]
    exact h.live

/-- Two signals and two threads that serve: one finds the other's callback running, and
starts the second callback when that has returned. -/
theorem callbacks_run_in_order_two : ∃ s : SingleThreadedSchedulerClient,
    (s.started = [0, 1] ∧ s.seen 0 = [(0, true), (1, true)]) ∧
      s.started <+: s.added ∧ ((s.seen 0).filter (·.2)).Pairwise (·.1 < ·.1) := by
  have hrun : Run (fun s a s' => step s a = some s') {}
      [.signal 0, .advance 0, .advance 0, .advance 0, .signal 0, .advance 0, .advance 0, .advance 0,
        .serve 1, .serve 2, .advance 1, .advance 2, .advance 1, .advance 2, .notify 1 0,
        .finish 1 false, .advance 1, .advance 1, .advance 1, .advance 2, .advance 2, .notify 2 0]
      _ := run_of_foldlM_some rfl
  have h := callbacks_run_in_order hrun
  exact ⟨_, ⟨rfl, rfl⟩, h.1.1, h.2.2.2 0⟩

/-- A `BlockChecked` given after a queued signal is seen before it. -/
theorem direct_signal_overtakes : ∃ s : SingleThreadedSchedulerClient,
    Run (fun s a s' => s.step a = some s') {}
      [.signal 0, .advance 0, .advance 0, .advance 0, .direct 0 0, .serve 1, .advance 1, .advance 1,
        .notify 1 0] s ∧ s.seen 0 = [(1, false), (0, true)] :=
  ⟨_, run_of_foldlM_some rfl, rfl⟩

end SingleThreadedSchedulerClient
end Lithium
