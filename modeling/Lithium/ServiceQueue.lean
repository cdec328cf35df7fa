import Lithium.Lib.Transition
import Mathlib.Data.List.Sort

/-!
# The queue of the scheduler

`CScheduler` holds its tasks in a multimap from due time to function, which any number
of threads serve. A thread in `serviceQueue` gives up `newTaskMutex` only while it
waits and while it runs a task, so that what it does from one of these to the next is
one step, and the steps of all threads interleave with the calls and the clock. A thread whose
wait has timed out starts the first task of the queue, which need not be the one it waited for.
-/

namespace Lithium
open Lib Function List

/-- An entry of `taskQueue`, numbered in the order of the calls that made them. -/
structure Task where
  id : Nat
  due : Int

/-- Where a thread in `serviceQueue` has given up the mutex. -/
inductive ServiceThread where
  | wait
  | waitUntil (time : Int)
  | run

/-- The scheduler, the clock in nanoseconds, the threads in `serviceQueue`, and the tasks
started so far, the last one first. -/
structure CScheduler where
  now : Int
  taskQueue : List Task := []
  stopRequested : Bool := false
  stopWhenEmpty : Bool := false
  thread : Nat → Option ServiceThread := fun _ => none
  scheduled : Nat := 0
  started : List Task := []

/-- The clock moves on, a function of the scheduler is called, a thread enters
`serviceQueue`, its wait ends with or without a timeout, or its task returns or throws. -/
inductive SchedulerAction where
  | elapse (time : Nat)
  | schedule (t : Int)
  | scheduleFromNow (milliseconds : Int)
  | scheduleEvery (milliseconds : Int)
  | mockForward (seconds : Int)
  | stop
  | stopWhenDrained
  | serviceQueue (n : Nat)
  | wake (n : Nat)
  | timeout (n : Nat)
  | finish (n : Nat) (thrown : Bool)

namespace CScheduler
variable (s : CScheduler)

def shouldStop : Bool := s.stopRequested || (s.stopWhenEmpty && s.taskQueue.isEmpty)

/-- Equal times keep the order of the calls. -/
def schedule (t : Int) : CScheduler :=
  { s with
    taskQueue := s.taskQueue.orderedInsert (fun x y => x.due < y.due) ⟨s.scheduled, t⟩
    scheduled := s.scheduled + 1 }

/-- The outer loop of `serviceQueue` up to the next wait. -/
def serve (n : Nat) : CScheduler :=
  { s with thread := update s.thread n (if s.shouldStop then none else match s.taskQueue with
      | [] => some .wait
      | task :: _ => some (.waitUntil task.due)) }

def step : SchedulerAction → Option CScheduler
  | .elapse time => some { s with now := s.now + time }
  | .schedule t => some (s.schedule t)
  -- what `Repeat` does once its function returns is a `scheduleEvery` of the task's own
  | .scheduleFromNow ms | .scheduleEvery ms => some (s.schedule (s.now + ms * 10 ^ 6))
  | .mockForward seconds =>
    if 0 < seconds ∧ seconds ≤ 3600 then some { s with
      taskQueue := s.taskQueue.map fun task => { task with due := task.due - seconds * 10 ^ 9 } }
    else none
  | .stop => some { s with stopRequested := true }
  | .stopWhenDrained => some { s with stopWhenEmpty := true }
  | .serviceQueue n => match s.thread n with
    | none => some (s.serve n)
    | some _ => none
  | .wake n => match s.thread n with
    | some .wait | some (.waitUntil _) => some (s.serve n)
    | _ => none
  | .timeout n => match s.thread n with
    | some (.waitUntil time) =>
      if s.now < time then none else match s.shouldStop, s.taskQueue with
      | false, task :: queue => some { s with
          taskQueue := queue, thread := update s.thread n (some .run)
          started := task :: s.started }
      | _, _ => some (s.serve n)
    | _ => none
  | .finish n thrown => match s.thread n with
    | some .run => some (if thrown then { s with thread := update s.thread n none } else s.serve n)
    | _ => none

/-- Once the first task is taken, every other thread that waits until some time still
finds a task due by then. -/
def Shared : SchedulerAction → Prop
  | .timeout n => ∀ m time, m ≠ n → s.thread m = some (.waitUntil time) →
      ∃ task ∈ s.taskQueue.tail, task.due ≤ time
  | _ => True

/-- What a step does to the queue, and which threads wait for what after it. -/
inductive Effect (s : CScheduler) : SchedulerAction → CScheduler → Prop
  | schedule {a : SchedulerAction} (t : Int) : Effect s a (s.schedule t)
  | forward {a : SchedulerAction} {time : Int} : 0 ≤ time → Effect s a { s with
      taskQueue := s.taskQueue.map fun task => { task with due := task.due - time } }
  | start {n : Nat} {time : Int} {task : Task} {queue : List Task} :
      s.thread n = some (.waitUntil time) → time ≤ s.now → s.taskQueue = task :: queue →
      Effect s (.timeout n) { s with
        taskQueue := queue, thread := update s.thread n (some .run), started := task :: s.started }
  | keep {a : SchedulerAction} {s' : CScheduler} : s'.taskQueue = s.taskQueue →
      s'.started = s.started → s'.scheduled = s.scheduled →
      (∀ n time, s'.thread n = some (.waitUntil time) → s.thread n = some (.waitUntil time) ∨
        ∃ task ∈ s.taskQueue, task.due ≤ time) → Effect s a s'

variable {s} {s' : CScheduler} {a : SchedulerAction} {task : Task} {now : Int}
  {actions : List SchedulerAction}

theorem effect_serve (n : Nat) : Effect s a (s.serve n) := by
  refine .keep rfl rfl rfl fun m time h => ?_
  simp only [serve, update_apply] at h
  grind

theorem effect_of_step (h : s.step a = some s') : Effect s a s' := by
  cases a with
  | schedule | scheduleFromNow | scheduleEvery =>
    cases h
    exact .schedule _
  | elapse | stop | stopWhenDrained =>
    cases h
    exact .keep rfl rfl rfl fun _ _ h => .inl h
  | mockForward seconds =>
    simp only [step] at h
    split at h <;> cases h
    exact .forward (by omega)
  | serviceQueue n | wake n =>
    simp only [step] at h
    split at h <;> cases h <;> exact effect_serve n
  | timeout n =>
    simp only [step] at h
    repeat' split at h
    all_goals cases h
    · exact .start ‹_› (Int.not_lt.mp ‹_›) ‹_›
    · exact effect_serve n
  | finish n thrown =>
    simp only [step] at h
    split at h <;> cases h
    split
    · exact .keep rfl rfl rfl fun m time h => .inl (by grind)
    · exact effect_serve n

/-- The queue is in the order of the due times, and every task ever scheduled is
in the queue or has been started, once. -/
structure Ordered (s : CScheduler) : Prop where
  sorted : s.taskQueue.Pairwise fun x y => x.due ≤ y.due
  ids : ((s.taskQueue ++ s.started).map Task.id).Perm (range s.scheduled)

theorem pairwise_orderedInsert {queue : List Task} (h : queue.Pairwise fun x y => x.due ≤ y.due) :
    (queue.orderedInsert (fun x y => x.due < y.due) task).Pairwise fun x y => x.due ≤ y.due := by
  induction queue with
  | nil => simp
  | cons first queue ih =>
    rw [pairwise_cons] at h
    rw [orderedInsert]
    split_ifs <;> simp only [pairwise_cons, mem_orderedInsert] <;> grind

theorem Ordered.step (h : s.Ordered) (hstep : s.step a = some s') : s'.Ordered := by
  obtain ⟨hsort, hids⟩ := h
  cases effect_of_step hstep with
  | schedule t =>
    refine ⟨pairwise_orderedInsert hsort, ?_⟩
    refine (((perm_orderedInsert _ _ _).append_right _).map _).trans ?_
    rw [schedule, range_succ]
    exact (hids.cons _).trans (perm_append_singleton _ _).symm
  | forward =>
    exact ⟨pairwise_map.mpr (hsort.imp fun hle => by simpa using hle),
      by simpa [comp_def] using hids⟩
  | start _ _ hq =>
    rw [hq] at hsort hids
    exact ⟨hsort.of_cons, (perm_middle.map _).trans hids⟩
  | keep hq hstart hscheduled _ =>
    exact ⟨hq ▸ hsort, by rwa [hq, hstart, hscheduled]⟩

/-- For every thread that waits until some time there is a task due by then. -/
def InTime (s : CScheduler) : Prop :=
  ∀ n time, s.thread n = some (.waitUntil time) → ∃ task ∈ s.taskQueue, task.due ≤ time

theorem InTime.step (h : s.InTime) (hstep : s.step a = some s') (hshared : s.Shared a) :
    s'.InTime := by
  intro n time hn
  cases effect_of_step hstep with
  | schedule t =>
    obtain ⟨task, hmem, hdue⟩ := h n time hn
    exact ⟨task, (mem_orderedInsert ..).mpr (.inr hmem), hdue⟩
  | forward _ =>
    obtain ⟨task, hmem, hdue⟩ := h n time hn
    exact ⟨_, mem_map_of_mem hmem, by simp; omega⟩
  | @start m _ _ _ _ _ hq =>
    by_cases hm : n = m
    · simp [hm] at hn
    · simpa [hq] using hshared n time hm (by simpa [hm] using hn)
  | keep hq _ _ hthr =>
    rw [hq]
    exact (hthr n time hn).elim (h n time) id

/-- In every run a task is started at most once, and none left in the queue is due
earlier. It is not started early if threads only ever take tasks that no other thread
needs. -/
theorem starts_once_in_order (hrun : Run (fun s a s' => s.step a = some s') { now } actions s)
    (hstep : s.step a = some s') (hstart : s'.started = task :: s.started) :
    task.id ∉ s.started.map Task.id ∧ (∀ x ∈ s'.taskQueue, task.due ≤ x.due) ∧
      (Run (fun s a s' => s.step a = some s' ∧ s.Shared a) { now } actions s →
        task.due ≤ s.now) := by
  have hordered : s.Ordered := hrun.invariant ⟨by simp, by simp⟩ Ordered.step
  cases effect_of_step hstep with
  | schedule | forward _ => exact absurd hstart.symm (cons_ne_self _ _)
  | keep _ hkeep => exact absurd (hstart.symm.trans hkeep) (cons_ne_self _ _)
  | @start n time first queue hthr htime hq =>
    obtain rfl : first = task := head_eq_of_cons_eq hstart
    have hfst : ∀ x ∈ s.taskQueue, first.due ≤ x.due := by
      have hsort := hordered.sorted
      rw [hq] at hsort ⊢
      simpa using (pairwise_cons.mp hsort).1
    refine ⟨?_, fun x hx => hfst x (hq ▸ mem_cons_of_mem _ hx), fun hshared => ?_⟩
    · have hnd := hordered.ids.nodup_iff.mpr nodup_range
      simp only [hq, cons_append, map_cons, map_append, nodup_cons,
        mem_append, not_or] at hnd
      exact hnd.1.2
    · have hinTime : s.InTime :=
        hshared.invariant nofun fun h hstep => h.step hstep.1 hstep.2
      obtain ⟨x, hx, hdue⟩ := hinTime n time hthr
      exact ((hfst x hx).trans hdue).trans htime

/-- Two threads and a task for each of them: the second starts its own after the first. -/
theorem starts_once_in_order_both : ∃ (s s' : CScheduler) (task : Task),
    Run (fun s a s' => s.step a = some s' ∧ s.Shared a) { now := 0 }
      [.schedule 1, .schedule 1, .serviceQueue 0, .serviceQueue 1, .elapse 1, .timeout 0] s ∧
    s.step (.timeout 1) = some s' ∧ s'.started = task :: s.started ∧
      task.id ∉ s.started.map Task.id ∧ task.due ≤ s.now := by
  have hrun : Run (fun (s : CScheduler) a s' => s.step a = some s' ∧ s.Shared a) { now := 0 }
      ([] ++ [.schedule 1] ++ [.schedule 1] ++ [.serviceQueue 0] ++ [.serviceQueue 1] ++
        [.elapse 1] ++ [.timeout 0]) _ :=
    .snoc (.snoc (.snoc (.snoc (.snoc (.snoc .nil ⟨rfl, trivial⟩) ⟨rfl, trivial⟩)
      ⟨rfl, trivial⟩) ⟨rfl, trivial⟩) ⟨rfl, trivial⟩) ⟨rfl, fun m time hm hwaits => by
        -- the other thread waits until 1, when the second task is due
        rcases m with _ | _ | m
        · exact absurd rfl hm
        · cases hwaits
          exact ⟨⟨1, 1⟩, mem_singleton_self _, le_rfl⟩
        · cases hwaits⟩
  have hplain : Run (fun (s : CScheduler) a s' => s.step a = some s') { now := 0 }
      [.schedule 1, .schedule 1, .serviceQueue 0, .serviceQueue 1, .elapse 1, .timeout 0] _ :=
    run_of_foldlM_some rfl
  have horder := starts_once_in_order (a := .timeout 1) hplain rfl rfl
  exact ⟨_, _, _, hrun, rfl, rfl, horder.1, horder.2.2 hrun⟩

/-- Two threads wait for one task. The first one runs it, and the other one, whose
wait has timed out as well, the next task. -/
theorem starts_early : ∃ (actions : List SchedulerAction) (s s' : CScheduler) (task : Task),
    Run (fun s a s' => s.step a = some s') { now := 0 } actions s ∧
      s.step (.timeout 1) = some s' ∧ s'.started = task :: s.started ∧ s.now < task.due :=
  ⟨[.schedule 1, .schedule 100, .serviceQueue 0, .serviceQueue 1, .elapse 1, .timeout 0], _, _, _,
    run_of_foldlM_some rfl, rfl, rfl, by decide⟩

end CScheduler
end Lithium
