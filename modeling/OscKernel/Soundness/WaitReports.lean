import OscKernel.Soundness.TaskQueues

/-! # What waitpid reports

`sys_waitpid` looks for the task on the run queue. A task leaves that queue together with its
becoming a zombie, so a look never meets a zombie: it finds the task still running and goes on, or
finds nobody and returns -1. The exit of a task is therefore reported only as an error
(`exit_unreported`), and the wait is as it should be in the runs in which no look comes after the
exit.
-/

namespace OscKernel.Soundness.WaitReports

open OscKernel.Lib OscKernel.Model OscKernel.Model.Sched OscKernel.Soundness.TaskQueues

/-! ## A task in sys_waitpid -/

/-- The scheduler during a call of `sys_waitpid`. -/
structure Waiting where
  sched : Sched
  returned : Option ℤ
  /-- The tasks that were zombies since the call. -/
  exited : ℕ → Bool

inductive Event where
  /-- The waiter goes through the loop of `sys_waitpid` once, up to its call of `schedule`. -/
  | look
  | other (event : TaskQueues.Event)

deriving instance DecidableEq for TaskQueues.Event

/-- The waiter runs, and is still the task that called. -/
def Waits (waiter : ℕ) (s : Waiting) : Prop := s.sched.current = waiter ∧ s.exited waiter = false

instance (waiter : ℕ) (s : Waiting) : Decidable (Waits waiter s) :=
  inferInstanceAs (Decidable (_ ∧ _))

/-- The call, at the scheduler it happens in. -/
def call (s : Sched) : Waiting := ⟨s, none, fun task => s.state task = .zombie⟩

/-- A step until the call returns; the waiter itself only looks and is scheduled away. -/
def perform (waiter : ℕ) (pid : BitVec 32) (fuel : ℕ) (s : Waiting) : Event → Option Waiting
  | .look =>
    if s.returned = none ∧ Waits waiter s then
      (s.sched.waitpidLook pid fuel).map fun outcome => { s with returned := outcome }
    else none
  | .other event =>
    if s.returned = none ∧ (Waits waiter s → event = .schedule) then
      (TaskQueues.perform fuel s.sched event).map fun t =>
        { s with sched := t, exited := fun task => s.exited task || t.state task = .zombie }
    else none

/-- A task that exits is not its own successor on the run queue. -/
def Permitted (s : Waiting) : Event → Prop
  | .look => True
  | .other event => NotLast s.sched event

def transitions (waiter : ℕ) (pid : BitVec 32) : System Waiting Event :=
  System.restrict ⟨fun s event t => ∃ fuel, perform waiter pid fuel s event = some t⟩ Permitted

/-- A call that returned reports the exit of the target. -/
def Reports (target : ℕ) (pid : BitVec 32) (s : Waiting) : Prop :=
  ∀ value, s.returned = some value → value = pid.toInt ∧ value ≠ -1 ∧ s.exited target = true

/-- A task on the run queue has the number. -/
def Present (pid : BitVec 32) (s : Waiting) : Prop :=
  ∃ task, InQueue s.sched task ∧ s.sched.pid task = pid

/-! ## What a look sees -/

section Looks

variable {s : Sched} {running zombies : List ℕ} {pid : BitVec 32}

/-- A look at the run queue never meets a zombie. -/
private theorem waitpidLook_outcome (queues : Queues s running zombies) {fuel : ℕ}
    {outcome : Option ℤ} (looked : s.waitpidLook pid fuel = some outcome) :
    (∃ task ∈ running, s.pid task = pid) ∧ outcome = none ∨ (∀ task ∈ running, s.pid task ≠ pid) ∧
    outcome = some (-1) := by
  obtain ⟨found, search, result⟩ := Option.bind_eq_some_iff.mp looked
  rcases queues.findTask_pid search with ⟨task, member, same, rfl⟩ | ⟨nobody, rfl⟩
  · have state := ((queues.runningMembers task).mp member).2
    simp only [state, reduceCtorEq, if_false, Option.some.injEq] at result
    exact .inl ⟨⟨task, member, same⟩, result.symm⟩
  · exact .inr ⟨nobody, (Option.some.inj result).symm⟩

/-- A look comes to its end. -/
theorem waitpidLook_ends (queues : Queues s running zombies) (pid : BitVec 32) :
    ∃ fuel outcome, s.waitpidLook pid fuel = some outcome := by
  obtain ⟨fuel, found, search⟩ := (queues.findTask pid).2
  rcases queues.findTask_pid search with ⟨task, member, same, rfl⟩ | ⟨nobody, rfl⟩
  · have state := ((queues.runningMembers task).mp member).2
    exact ⟨fuel, none, by simp [Sched.waitpidLook, search, state]⟩
  · exact ⟨fuel, some (-1), by simp [Sched.waitpidLook, search]⟩

theorem present_iff {w : Waiting} (queues : Queues w.sched running zombies) :
    Present pid w ↔ ∃ task ∈ running, w.sched.pid task = pid := by
  constructor
  · rintro ⟨task, listed, same⟩
    exact ⟨task, listed.member queues, same⟩
  · rintro ⟨task, member, same⟩
    exact ⟨task, InQueue.of_member queues member, same⟩

end Looks

/-! ## Runs -/

section Runs

variable {waiter target : ℕ} {pid : BitVec 32} {s t u v : Waiting} {events : List Event}

theorem partitioned_step (partitioned : Partitioned s.sched) {event : Event}
    (step : (transitions waiter pid).Step s event t) : Partitioned t.sched := by
  obtain ⟨permitted, fuel, stepped⟩ := step
  cases event with
  | look =>
    obtain ⟨-, stepped⟩ := Option.ite_none_right_eq_some.mp stepped
    obtain ⟨outcome, -, rfl⟩ := Option.map_eq_some_iff.mp stepped
    exact partitioned
  | other event =>
    obtain ⟨-, stepped⟩ := Option.ite_none_right_eq_some.mp stepped
    obtain ⟨next, performed, rfl⟩ := Option.map_eq_some_iff.mp stepped
    exact partitioned.step ⟨permitted, fuel, performed⟩

/-- A look that finds a task with the number does not return, and any other returns -1. -/
theorem look_returned (partitioned : Partitioned s.sched)
    (step : (transitions waiter pid).Step s .look t) :
    Present pid s ∧ t.returned = none ∨ ¬ Present pid s ∧ t.returned = some (-1) := by
  obtain ⟨running, zombies, queues, -⟩ := partitioned
  obtain ⟨-, fuel, stepped⟩ := step
  obtain ⟨-, stepped⟩ := Option.ite_none_right_eq_some.mp stepped
  obtain ⟨outcome, looked, rfl⟩ := Option.map_eq_some_iff.mp stepped
  rw [present_iff queues]
  rcases waitpidLook_outcome queues looked with ⟨here, rfl⟩ | ⟨nobody, rfl⟩
  · exact .inl ⟨here, rfl⟩
  · refine .inr ⟨?_, rfl⟩
    rintro ⟨task, member, same⟩
    exact nobody task member same

/-- What a run keeps whose looks all find a task with the number. -/
def StillWaits (s : Waiting) : Prop := Partitioned s.sched ∧ s.returned = none

/-- A look comes while a task with the number is on the run queue. -/
def LooksInTime (pid : BitVec 32) (s : Waiting) (event : Event) : Prop :=
  event = .look → Present pid s

theorem StillWaits.step (waits : StillWaits s) {event : Event}
    (step : ((transitions waiter pid).restrict (LooksInTime pid)).Step s event t) :
    StillWaits t := by
  obtain ⟨inTime, taken⟩ := step
  refine ⟨partitioned_step waits.1 taken, ?_⟩
  cases event with
  | look =>
    rcases look_returned waits.1 taken with ⟨-, goesOn⟩ | ⟨nobody, -⟩
    · exact goesOn
    · exact absurd (inTime rfl) nobody
  | other event =>
    obtain ⟨-, fuel, stepped⟩ := taken
    obtain ⟨-, stepped⟩ := Option.ite_none_right_eq_some.mp stepped
    obtain ⟨next, -, rfl⟩ := Option.map_eq_some_iff.mp stepped
    exact waits.2

/-- The target runs under its number, or it was a zombie since the call; only then does the call
return. -/
structure Tracks (target : ℕ) (pid : BitVec 32) (s : Waiting) : Prop where
  partitioned : Partitioned s.sched
  alive : s.sched.allocated target = true ∧ s.sched.pid target = pid ∧
    s.sched.state target = .running ∨
    s.exited target = true
  returned : ∀ value, s.returned = some value → value = -1 ∧ s.exited target = true

theorem Tracks.step (tracks : Tracks target pid s) {event : Event}
    (step : (transitions waiter pid).Step s event t) :
    Tracks target pid t := by
  have next := partitioned_step tracks.partitioned step
  cases event with
  | look =>
    have looked := look_returned tracks.partitioned step
    obtain ⟨-, fuel, stepped⟩ := step
    obtain ⟨-, stepped⟩ := Option.ite_none_right_eq_some.mp stepped
    obtain ⟨outcome, -, rfl⟩ := Option.map_eq_some_iff.mp stepped
    refine ⟨next, tracks.alive, fun value returned => ?_⟩
    rcases looked with ⟨-, goesOn⟩ | ⟨nobody, failed⟩
    · cases goesOn.symm.trans returned
    · obtain rfl := Option.some.inj (failed.symm.trans returned)
      refine ⟨rfl, tracks.alive.resolve_left ?_⟩
      rintro ⟨allocated, number, running⟩
      obtain ⟨queue, zombies, queues, -⟩ := tracks.partitioned
      have member := (queues.runningMembers target).mpr ⟨allocated, running⟩
      exact nobody ((present_iff queues).mpr ⟨target, member, number⟩)
  | other event =>
    obtain ⟨-, fuel, stepped⟩ := step
    obtain ⟨⟨pending, -⟩, stepped⟩ := Option.ite_none_right_eq_some.mp stepped
    obtain ⟨after, performed, rfl⟩ := Option.map_eq_some_iff.mp stepped
    refine ⟨next, ?_, fun value returned => ?_⟩
    · rcases tracks.alive with ⟨allocated, number, running⟩ | exited
      · obtain ⟨stays, same, lives | died⟩ :=
          tracks.partitioned.survives ⟨fuel, performed⟩ allocated running
        · exact .inl ⟨stays, same.trans number, lives⟩
        · exact .inr (by simp [died])
      · exact .inr (by simp [exited])
    · cases pending.symm.trans returned

private theorem partitioned_visits {start : Waiting} (partitioned : Partitioned start.sched)
    (visits : System.Path.Visits (transitions waiter pid) start events s u) :
    Partitioned u.sched := by
  obtain ⟨before, -, -, path, -⟩ := visits
  have preserved : ∀ {a e b}, Partitioned (Waiting.sched a) →
      (transitions waiter pid).Step a e b → Partitioned b.sched :=
    fun partitioned step => partitioned_step partitioned step
  exact path.invariant preserved partitioned

/-- From a call for the number of a task on the run queue, in every run in which no task exits while
alone on it, the call returns nothing but -1, and that only after the task became a zombie; it
reports the exit as it should exactly when each look comes while a task with the number is still on
the run queue. -/
theorem waitpid_reports {idle : ℕ} {booted start : Sched} {earlier : List TaskQueues.Event}
    (boot : Sched.boot idle = some booted)
    (before : System.Path (TaskQueues.transitions.restrict NotLast) booted earlier start)
    (queued : InQueue start target) (number : start.pid target = pid)
    (run : System.Path (transitions start.current pid) (call start) events s) :
    ((∀ u, System.Path.Visits (transitions start.current pid) (call start) events s u →
      Reports target pid u) ↔
      ∀ u v, System.Path.Takes (transitions start.current pid) (call start) events s u .look v →
      Present pid u) ∧
    ∀ value, s.returned = some value → value = -1 ∧ s.exited target = true := by
  have partitioned : Partitioned start := (queues_partition boot before).1
  refine ⟨⟨?_, ?_⟩, ?_⟩
  · intro reports u v takes
    obtain ⟨-, -, -, -, step, -⟩ := id takes
    rcases look_returned (partitioned_visits partitioned takes.source) step with
      ⟨here, -⟩ | ⟨-, failed⟩
    · exact here
    · obtain ⟨-, noError, -⟩ := reports v takes.target (-1) failed
      exact absurd rfl noError
  · intro inTime u visits value returned
    have meets : ∀ a e b, System.Path.Takes (transitions start.current pid) (call start)
        events s a e b → LooksInTime pid a e := by
      rintro a e b takes rfl
      exact inTime a b takes
    have waits : StillWaits u :=
      System.Path.visits_invariant visits meets (fun waits step => waits.step step)
      ⟨partitioned, rfl⟩
    cases waits.2.symm.trans returned
  · obtain ⟨running, zombies, queues, -⟩ := id partitioned
    obtain ⟨allocated, runs⟩ := (queues.runningMembers target).mp (queued.member queues)
    have preserved : ∀ {a e b}, Tracks target pid a →
        (transitions start.current pid).Step a e b → Tracks target pid b :=
      fun tracks step => tracks.step step
    exact (run.invariant preserved ⟨partitioned, .inl ⟨allocated, number, runs⟩, nofun⟩).returned

/-- Task 2 waits for task 3, which exits before it looks again. -/
theorem exit_unreported : ¬ ∀ (idle target : ℕ) (pid : BitVec 32) (booted start : Sched)
    (earlier : List TaskQueues.Event) (events : List Event)
    (s : Waiting), Sched.boot idle = some booted →
    System.Path (TaskQueues.transitions.restrict NotLast) booted earlier start →
    InQueue start target →
    start.pid target = pid → start.current ≠ target →
    System.Path (transitions start.current pid) (call start) events s → Reports target pid s := by
  intro always
  have ran : ∃ booted start s, Sched.boot 1 = some booted ∧
      System.Path (TaskQueues.transitions.restrict NotLast) booted [.threadCreate 2,
        .schedule, .threadCreate 3] start ∧
      InQueue start 3 ∧ start.pid 3 = 2#32 ∧ start.current = 2 ∧
      System.Path (transitions start.current 2#32) (call start)
        [.look, .other .schedule, .other .schedule, .other .threadExit, .look] s ∧
        s.returned = some (-1) := by
    refine ⟨_, _, _, rfl, .cons ⟨nofun, 0, rfl⟩
      (.cons ⟨nofun, 0, rfl⟩ (.cons ⟨nofun, 0, rfl⟩ (.nil _))), ⟨2, rfl⟩, rfl, rfl, .cons
      ⟨trivial, 3, rfl⟩ (.cons ⟨nofun, 0, rfl⟩ (.cons ⟨nofun, 0, rfl⟩ (.cons ⟨fun _ => ?_, 0, rfl⟩
        (.cons ⟨trivial, 3, rfl⟩ (.nil _))))), rfl⟩
    exact fun same => absurd (Option.some.inj same) (show (2 : ℕ) ≠ 3 by decide)
  obtain ⟨booted, start, s, boot, before, queued, number, caller, run, returned⟩ := ran
  have different : start.current ≠ 3 := fun same => absurd (caller.symm.trans same) (by decide)
  obtain ⟨value, -⟩ :=
    always 1 3 2#32 booted start _ _ s boot before queued number different run (-1) returned
  exact absurd value (by decide)

/-- Task 2 looks for task 3 and goes on waiting. -/
theorem waitpid_reports_pending : ∃ booted start s, Sched.boot 1 = some booted ∧
    System.Path (TaskQueues.transitions.restrict NotLast) booted [.threadCreate 2,
      .schedule, .threadCreate 3] start ∧
    InQueue start 3 ∧ System.Path (transitions start.current 2#32) (call start) [.look] s ∧
    Reports 3 2#32 s := by
  have ran : ∃ booted start s, Sched.boot 1 = some booted ∧
      System.Path (TaskQueues.transitions.restrict NotLast) booted [.threadCreate 2,
        .schedule, .threadCreate 3] start ∧
      InQueue start 3 ∧ start.pid 3 = 2#32 ∧
      (transitions start.current 2#32).Step (call start) .look s ∧
      InQueue (call start).sched 3 ∧ (call start).sched.pid 3 = 2#32 := by
    exact ⟨_, _, _, rfl, .cons ⟨nofun, 0, rfl⟩ (.cons ⟨nofun, 0, rfl⟩
      (.cons ⟨nofun, 0, rfl⟩ (.nil _))), ⟨2, rfl⟩, rfl, ⟨trivial, 3, rfl⟩, ⟨2, rfl⟩, rfl⟩
  obtain ⟨booted, start, s, boot, before, queued, number, step, here, same⟩ := ran
  have run : System.Path (transitions start.current 2#32) (call start) [.look] s :=
    .cons step (.nil s)
  refine ⟨booted, start, s, boot, before, queued, run, ?_⟩
  refine (waitpid_reports boot before queued number run).1.mpr (fun u v takes => ?_) s
    ⟨[.look], [], rfl, run, .nil s⟩
  obtain ⟨first, second, split, path, -, -⟩ := takes
  cases first with
  | nil =>
    cases path
    exact ⟨3, here, same⟩
  | cons _ rest =>
    obtain ⟨-, rest⟩ := List.cons.inj split
    simp at rest

end Runs

end OscKernel.Soundness.WaitReports
