import OscKernel.Lib.Rotation
import OscKernel.Soundness.TaskQueues

/-! # Round-robin order

Tasks are switched by `schedule` alone, which a task calls or the timer interrupt: also when a task
has left the run queue in `thread_exit` and not yet called `schedule` itself. The run queue is then
a rotating queue, whose first task is the current one unless that has left, and between two
dispatches of a task every other task that stays in the queue with it is dispatched once. The idle
task is never stopped and does not exit.
-/

namespace OscKernel.Soundness.RoundRobin

open OscKernel.Lib OscKernel.Model OscKernel.Model.Sched OscKernel.Soundness.TaskQueues

/-! ## Dispatches -/

/-- The scheduler with the tasks that `switch_to` switched to. -/
structure Dispatching where
  sched : Sched
  /-- The current task is in `thread_exit`, before its call of `schedule`. -/
  exited : Bool
  log : List ℕ

inductive Event where
  /-- A task is created and enqueued. -/
  | spawn (task : ℕ) (handlers : Fin 32 → Word)
  /-- By the current task or the timer interrupt. -/
  | schedule
  | threadExit
  | sysStop (pid : BitVec 32)
  | killZombies

/-- A step, with its loops bounded; an exiting task only calls `schedule`. -/
def perform (fuel : ℕ) (s : Dispatching) : Event → Option Dispatching
  | .schedule => s.sched.schedule.map fun t =>
    if t.current = s.sched.current then { s with sched := t } else ⟨t, false, s.log ++ [t.current]⟩
  | .spawn task handlers =>
    if s.exited then none else (s.sched.spawn task handlers).map fun t => { s with sched := t }
  | .threadExit => if s.exited then none else s.sched.leaveQueue.map fun t => ⟨t, true, s.log⟩
  | .sysStop pid => if s.exited then none else (s.sched.sysStop pid fuel).map fun result =>
    { s with sched := result.2 }
  | .killZombies => if s.exited then none else (s.sched.killZombies fuel).map fun t =>
    { s with sched := t }

/-- The idle task does not exit, and nobody stops it. -/
def KeepsIdle (idle : ℕ) (s : Dispatching) : Event → Prop
  | .threadExit => s.sched.current ≠ idle
  | .sysStop pid => ∀ fuel, s.sched.findTask pid fuel ≠ some (some idle)
  | _ => True

def transitions (idle : ℕ) : System Dispatching Event :=
  System.restrict ⟨fun s event t => ∃ fuel, perform fuel s event = some t⟩ (KeepsIdle idle)

/-! ## The run queue is a rotating queue -/

structure Refines (idle : ℕ) (s : Dispatching) (r : Rotation ℕ) (zombies : List ℕ) : Prop where
  queues : Queues s.sched r.queue zombies
  current : r.current = s.sched.current
  left : r.left = s.exited
  sound : r.Sound
  idle : idle ∈ r.queue
  exits : s.exited = true → s.sched.current ∈ zombies

section Steps

variable {idle : ℕ} {s t : Dispatching} {r : Rotation ℕ} {zombies : List ℕ}

/-- What a step has to show: the abstract queue takes a step that dispatches what is logged. -/
def Simulated (idle : ℕ) (s t : Dispatching) (r : Rotation ℕ) : Prop :=
  ∃ r' zombies dispatched, Rotation.Step r dispatched r' ∧ Refines idle t r' zombies ∧
    t.log = s.log ++ dispatched.toList

/-- `schedule` by a task at the head of a ring of at least two. -/
theorem schedule_turn {s : Sched} {next : ℕ} {rest : List ℕ}
    (queues : Queues s (s.current :: next :: rest) zombies) :
    s.schedule = some { s with runQueue := some next, current := next } := by
  obtain ⟨second, head, following, -⟩ := queues.ring.next_first
  obtain rfl : next = second := Option.some.inj head
  have other : next ≠ s.current :=
    fun same => (List.nodup_cons.mp queues.runningNodup).1 (same ▸ List.mem_cons_self)
  have here : s.runQueue = some s.current := queues.head
  have allocated := queues.allocated s.current List.mem_cons_self
  have allocatedNext := queues.allocated next (List.mem_cons_of_mem _ List.mem_cons_self)
  simp [Sched.schedule, here, getNext, deref, allocated, following, other, allocatedNext]

theorem schedule_alone {s : Sched} (queues : Queues s [s.current] zombies) :
    s.schedule = some s := by
  have following : s.next s.current = some s.current := (links_pair.mp queues.ring).1
  have here : s.runQueue = some s.current := queues.head
  have allocated := queues.allocated s.current List.mem_cons_self
  simp only [Sched.schedule, here, getNext, deref, allocated, following, if_true, Option.map_some,
    Option.bind_eq_bind, Option.bind_some]
  rw [← here]

/-- `schedule` by a task that left the ring. -/
theorem schedule_takeOver {s : Sched} {next : ℕ} {rest : List ℕ}
    (queues : Queues s (next :: rest) zombies) (other : s.current ≠ next) :
    s.schedule = some { s with current := next } := by
  have here : s.runQueue = some next := queues.head
  have allocated := queues.allocated next List.mem_cons_self
  simp [Sched.schedule, here, deref, allocated, other, other.symm]

theorem Refines.schedule (refines : Refines idle s r zombies)
    (stepped : (s.sched.schedule.map fun t =>
      if t.current = s.sched.current then { s with sched := t }
      else ⟨t, false, s.log ++ [t.current]⟩) = some t) :
    Simulated idle s t r := by
  obtain ⟨queues, current, left, sound, idleIn, exits⟩ := refines
  cases exited : s.exited with
  | false =>
    obtain ⟨rest, shape⟩ := sound.cons (left.trans exited)
    rw [current] at shape
    rw [shape] at queues idleIn
    cases rest with
    | nil =>
      rw [schedule_alone queues, Option.map_some, if_pos rfl] at stepped
      obtain rfl := Option.some.inj stepped
      rw [← shape] at queues idleIn
      exact ⟨r, zombies, none, .stay, ⟨queues, current, left, sound, idleIn, exits⟩,
        (List.append_nil _).symm⟩
    | cons next rest =>
      have other : next ≠ s.sched.current := fun same =>
        (List.nodup_cons.mp queues.runningNodup).1 (same ▸ List.mem_cons_self)
      rw [schedule_turn queues, Option.map_some, if_neg other] at stepped
      obtain rfl := Option.some.inj stepped
      have turned : Rotation.Step r (some next) { r with
          queue := next :: rest ++ [r.current], current := next } :=
        .turn (left.trans exited) (by rw [shape, current])
      have perm : (next :: rest ++ [s.sched.current]).Perm (s.sched.current :: next :: rest) :=
        List.perm_append_singleton _ _
      refine ⟨_, zombies, some next, turned,
        ⟨⟨rfl, ?_, ?_, fun x => ?_, queues.chain, queues.zombiesNodup, queues.zombieMembers⟩, rfl,
        left.trans exited, sound.step turned, ?_, nofun⟩, rfl⟩
      · rw [current]
        exact queues.ring.rotate
      · rw [current]
        exact perm.nodup_iff.mpr queues.runningNodup
      · rw [current, perm.mem_iff]
        exact queues.runningMembers x
      · rw [current]
        exact perm.mem_iff.mpr idleIn
  | true =>
    obtain ⟨next, rest, shape⟩ := List.exists_cons_of_ne_nil (List.ne_nil_of_mem idleIn)
    have gone := sound.gone (left.trans exited)
    rw [current, shape] at gone
    have other : s.sched.current ≠ next := fun same => gone (same ▸ List.mem_cons_self)
    have took : Rotation.Step r (some next) { r with current := next, left := false } :=
      .takeOver (left.trans exited) shape
    rw [schedule_takeOver (shape ▸ queues) other, Option.map_some, if_neg other.symm] at stepped
    obtain rfl := Option.some.inj stepped
    exact ⟨_, zombies, some next, took,
      ⟨⟨queues.head, queues.ring, queues.runningNodup, queues.runningMembers, queues.chain,
      queues.zombiesNodup, queues.zombieMembers⟩, rfl, rfl, sound.step took, idleIn, nofun⟩, rfl⟩

theorem Refines.spawn (refines : Refines idle s r zombies) (runs : s.exited = false) {task : ℕ}
    {handlers : Fin 32 → Word} {created : Sched}
    (spawned : s.sched.spawn task handlers = some created) :
    Simulated idle s { s with sched := created } r := by
  obtain ⟨queues, current, left, sound, idleIn, exits⟩ := refines
  cases fresh : s.sched.allocated task with
  | true =>
    rw [Sched.spawn, if_pos fresh] at spawned
    cases spawned
  | false =>
    have new : task ∉ r.queue :=
      fun member => Bool.false_ne_true (fresh.symm.trans (queues.allocated task member))
    have added : Rotation.Step r none { r with queue := r.queue ++ [task] } :=
      .add (left.trans runs) new
    obtain ⟨t, result, queues, same⟩ := queues.spawn fresh handlers
    obtain rfl := Option.some.inj (result.symm.trans spawned)
    refine ⟨_, zombies, none, added, ⟨queues, current.trans same.symm, left, sound.step added,
      List.mem_append_left _ idleIn, fun exited => ?_⟩, (List.append_nil _).symm⟩
    cases runs.symm.trans exited

theorem Refines.threadExit (refines : Refines idle s r zombies) (runs : s.exited = false)
    (notIdle : s.sched.current ≠ idle) {exited : Sched} (left' : s.sched.leaveQueue = some exited) :
    Simulated idle s ⟨exited, true, s.log⟩ r := by
  obtain ⟨queues, current, left, sound, idleIn, exits⟩ := refines
  obtain ⟨rest, shape⟩ := sound.cons (left.trans runs)
  have leaves : Rotation.Step r none { r with queue := r.queue.erase r.current, left := true } :=
    .leave (left.trans runs)
  have erased : r.queue.erase r.current = rest := by rw [shape, List.erase_cons_head]
  rw [current] at shape
  rw [shape] at queues idleIn
  have idleStays : idle ∈ rest := (List.mem_cons.mp idleIn).resolve_left notIdle.symm
  have others : rest ++ [] ≠ [] := by
    rw [List.append_nil]
    exact List.ne_nil_of_mem idleStays
  have split : Queues s.sched ([] ++ s.sched.current :: rest) zombies := queues
  obtain ⟨t, result, queues, same⟩ := split.leaveQueue others
  obtain rfl := Option.some.inj (result.symm.trans left')
  refine ⟨_, s.sched.current :: zombies, none, leaves, ⟨?_, current.trans same.symm, rfl,
    sound.step leaves, ?_, fun _ => ?_⟩, (List.append_nil _).symm⟩
  · rw [erased]
    exact queues
  · rw [erased]
    exact idleStays
  · rw [same]
    exact List.mem_cons_self

theorem Refines.sysStop (refines : Refines idle s r zombies) (runs : s.exited = false)
    {pid : BitVec 32} {fuel : ℕ} (keeps : s.sched.findTask pid fuel ≠ some (some idle))
    {result : ℤ × Sched} (stopped : s.sched.sysStop pid fuel = some result) :
    Simulated idle s { s with sched := result.2 } r := by
  have refined := refines
  obtain ⟨queues, current, left, sound, idleIn, exits⟩ := refines
  have stays : Simulated idle s s r := ⟨r, zombies, none, .stay, refined, (List.append_nil _).symm⟩
  cases search : s.sched.findTask pid fuel with
  | none => simp [Sched.sysStop, search] at stopped
  | some outcome =>
    by_cases nobody : ∀ curr, outcome = some curr → curr = s.sched.current
    · rw [sysStop_unchanged search nobody] at stopped
      obtain rfl := Option.some.inj stopped
      exact stays
    · simp only [not_forall] at nobody
      obtain ⟨curr, rfl, other⟩ := nobody
      have notIdle : idle ≠ curr := fun same => keeps (same ▸ search)
      have member := (queues.findTask pid).1 fuel curr search
      obtain ⟨before, after, shape⟩ := List.append_of_mem member
      have removed : Rotation.Step r none { r with queue := r.queue.erase curr } :=
        .remove (left.trans runs) (fun same => other (same.trans current))
      have apart : curr ∉ before := by
        have nodup := queues.runningNodup
        rw [shape] at nodup
        exact fun inside => (List.nodup_append.mp nodup).2.2 curr inside curr List.mem_cons_self rfl
      have erased : r.queue.erase curr = before ++ after := by
        rw [shape, List.erase_append_right _ apart, List.erase_cons_head]
      have idleStays : idle ∈ r.queue.erase curr := (List.mem_erase_of_ne notIdle).mpr idleIn
      have others : after ++ before ≠ [] := by
        rw [erased, List.mem_append, Or.comm, ← List.mem_append] at idleStays
        exact List.ne_nil_of_mem idleStays
      obtain ⟨t, stops, queues, same⟩ := (shape ▸ queues).stop search other others
      obtain rfl := Option.some.inj (stops.symm.trans stopped)
      refine ⟨_, curr :: zombies, none, removed, ⟨?_, current.trans same.symm, left,
        sound.step removed, idleStays, fun exited => ?_⟩, (List.append_nil _).symm⟩
      · rw [erased]
        exact queues
      · cases runs.symm.trans exited

theorem Refines.killZombies (refines : Refines idle s r zombies) (runs : s.exited = false)
    {fuel : ℕ} {reclaimed : Sched} (killed : s.sched.killZombies fuel = some reclaimed) :
    Simulated idle s { s with sched := reclaimed } r := by
  obtain ⟨queues, current, left, sound, idleIn, exits⟩ := refines
  obtain ⟨result, queues⟩ := queues.killZombies fuel
  rw [result] at killed
  obtain ⟨-, same⟩ := Option.ite_none_right_eq_some.mp killed
  obtain rfl := Option.some.inj same
  refine ⟨r, [], none, .stay, ⟨queues, current, left, sound, idleIn, fun exited => ?_⟩,
    (List.append_nil _).symm⟩
  cases runs.symm.trans exited

theorem Refines.step (refines : Refines idle s r zombies) {event : Event}
    (step : (transitions idle).Step s event t) :
    Simulated idle s t r := by
  obtain ⟨keeps, fuel, stepped⟩ := step
  cases event with
  | schedule => exact refines.schedule stepped
  | spawn task handlers =>
    obtain ⟨runs, stepped⟩ := Option.ite_none_left_eq_some.mp stepped
    obtain ⟨created, spawned, rfl⟩ := Option.map_eq_some_iff.mp stepped
    exact refines.spawn (Bool.eq_false_of_not_eq_true runs) spawned
  | threadExit =>
    obtain ⟨runs, stepped⟩ := Option.ite_none_left_eq_some.mp stepped
    obtain ⟨exited, left, rfl⟩ := Option.map_eq_some_iff.mp stepped
    exact refines.threadExit (Bool.eq_false_of_not_eq_true runs) keeps left
  | sysStop pid =>
    obtain ⟨runs, stepped⟩ := Option.ite_none_left_eq_some.mp stepped
    obtain ⟨result, stopped, rfl⟩ := Option.map_eq_some_iff.mp stepped
    exact refines.sysStop (Bool.eq_false_of_not_eq_true runs) (keeps fuel) stopped
  | killZombies =>
    obtain ⟨runs, stepped⟩ := Option.ite_none_left_eq_some.mp stepped
    obtain ⟨reclaimed, killed, rfl⟩ := Option.map_eq_some_iff.mp stepped
    exact refines.killZombies (Bool.eq_false_of_not_eq_true runs) killed

end Steps

/-! ## Runs -/

section Runs

variable {idle : ℕ} {booted : Sched} {s t u v w : Dispatching} {events : List Event}

theorem refines_boot (boot : Sched.boot idle = some booted) :
    ∃ r zombies, Refines idle ⟨booted, false, []⟩ r zombies := by
  obtain ⟨queues, current⟩ := queues_boot boot
  exact ⟨⟨[idle], idle, false⟩, [], queues, current.symm, rfl,
    ⟨List.nodup_singleton idle, fun _ => rfl, fun left => absurd left Bool.false_ne_true⟩,
    List.mem_singleton_self idle, fun left => absurd left Bool.false_ne_true⟩

private theorem run_refines (boot : Sched.boot idle = some booted)
    (run : System.Path (transitions idle) ⟨booted, false, []⟩ events s) :
    ∃ r zombies, Refines idle s r zombies := by
  have preserved : ∀ {s e t}, (∃ r zombies, Refines idle s r zombies) →
      (transitions idle).Step s e t →
      ∃ r zombies, Refines idle t r zombies := by
    rintro s e t ⟨r, zombies, refines⟩ step
    obtain ⟨r', zombies', -, -, refines', -⟩ := refines.step step
    exact ⟨r', zombies', refines'⟩
  exact run.invariant preserved (refines_boot boot)

/-- The queue a run has come to, with what was dispatched since `x` was. -/
def Since (idle x y : ℕ) (start s : Dispatching) : Prop :=
  ∃ r zombies seen, Refines idle s r zombies ∧ s.log = start.log ++ seen ∧
    (x ∉ seen → x ∈ r.queue → y ∈ r.queue → Rotation.Phase x y r seen)

/-- Both tasks are in the run queue. -/
def BothQueued (x y : ℕ) (s : Dispatching) : Prop := InQueue s.sched x ∧ InQueue s.sched y

theorem Since.step {x y : ℕ} {start : Dispatching} (different : x ≠ y)
    (since : Since idle x y start s) (both : BothQueued x y s) {e : Event}
    (step : (transitions idle).Step s e t) : Since idle x y start t := by
  obtain ⟨r, zombies, seen, refines, log, phase⟩ := since
  obtain ⟨r', zombies', dispatched, turned, refines', logged⟩ := refines.step step
  refine ⟨r', zombies', seen ++ dispatched.toList, refines', ?_, fun absent stays waits => ?_⟩
  · rw [logged, log, List.append_assoc]
  · have absentBefore : x ∉ seen := fun inside => absent (List.mem_append_left _ inside)
    have other : dispatched ≠ some x := by
      rintro rfl
      exact absent (List.mem_append_right seen (List.mem_singleton_self x))
    have here := phase absentBefore (both.1.member refines.queues) (both.2.member refines.queues)
    exact here.step refines.sound turned different other stays waits

/-- A step that dispatches a task gives it its turn. -/
private theorem dispatched_since {x y : ℕ} {r : Rotation ℕ} {zombies : List ℕ}
    (refines : Refines idle s r zombies) {e : Event} (step : (transitions idle).Step s e t)
    (dispatches : t.log = s.log ++ [x]) : Since idle x y t t := by
  obtain ⟨r', zombies', dispatched, turned, refines', logged⟩ := refines.step step
  have same : dispatched.toList = [x] := List.append_cancel_left (logged.symm.trans dispatches)
  obtain rfl : dispatched = some x := by
    cases dispatched with
    | none => cases same
    | some next => exact congrArg some (List.cons.inj same).1
  refine ⟨r', zombies', [], refines', (List.append_nil _).symm, fun _ _ _ => ?_⟩
  cases turned with
  | turn here _ => exact .running here rfl rfl
  | takeOver _ _ => exact .running rfl rfl rfl

/-- In every run from boot `run_queue` points to the current task while that is running, and between
two consecutive dispatches of a task every other task that stays in the queue with it is dispatched
once. -/
theorem round_robin (boot : Sched.boot idle = some booted)
    (run : System.Path (transitions idle) ⟨booted, false, []⟩ events s) :
    (s.sched.state s.sched.current = .running → s.sched.runQueue = some s.sched.current) ∧
    ∀ x y, x ≠ y → ∀ e u, (transitions idle).Step s e u → u.log = s.log ++ [x] →
      ∀ between v seen, System.Path (transitions idle) u between v →
      v.log = u.log ++ seen → x ∉ seen →
        (∀ q, System.Path.Visits (transitions idle) u between v q → BothQueued x y q) →
          ∀ e' w, (transitions idle).Step v e' w → w.log = v.log ++ [x] → seen.count y = 1 := by
  obtain ⟨r, zombies, refines⟩ := run_refines boot run
  constructor
  · intro running
    cases exited : s.exited with
    | false =>
      rw [refines.queues.head, refines.sound.head (refines.left.trans exited), refines.current]
    | true =>
      have zombie := ((refines.queues.zombieMembers _).mp (refines.exits exited)).2
      cases running.symm.trans zombie
  · intro x y different e u first dispatches between v seen path log absent both e' w last again
    have visits : System.Path.Visits (transitions idle) u between v v :=
      ⟨between, [], (List.append_nil between).symm, path, .nil v⟩
    have meets : ∀ a e b, System.Path.Takes (transitions idle) u between v a e b →
        BothQueued x y a :=
      fun a e b takes => both a takes.source
    have since : Since idle x y u v := System.Path.visits_invariant visits meets
      (fun since step => since.step different step.1 step.2)
      (dispatched_since refines first dispatches)
    obtain ⟨r', zombies', seen', refines', log', phase⟩ := since
    obtain rfl := List.append_cancel_left (log.symm.trans log')
    obtain ⟨queuedX, queuedY⟩ := both v visits
    have here := phase absent (queuedX.member refines'.queues) (queuedY.member refines'.queues)
    obtain ⟨r'', -, dispatched, turned, -, logged⟩ := refines'.step last
    have same : dispatched.toList = [x] := List.append_cancel_left (logged.symm.trans again)
    obtain rfl : dispatched = some x := by
      cases dispatched with
      | none => cases same
      | some next => exact congrArg some (List.cons.inj same).1
    exact here.again refines'.sound turned different

/-- A path of one step passes through its two ends. -/
private theorem visits_single {e : Event} {q : Dispatching}
    (visits : System.Path.Visits (transitions idle) u [e] v q) :
    q = u ∨ q = v := by
  obtain ⟨first, second, same, before, after⟩ := visits
  cases first with
  | nil =>
    cases before
    exact .inl rfl
  | cons _ rest =>
    obtain ⟨-, nothing⟩ := List.cons.inj same
    obtain ⟨-, rfl⟩ := List.append_eq_nil_iff.mp nothing.symm
    cases after
    exact .inr rfl

/-- Task 3 exits and is preempted before it calls `schedule`; task 1 has its turn between two turns
of task 2. -/
theorem round_robin_three : ∃ booted events s u v w seen, Sched.boot 1 = some booted ∧
    System.Path (transitions 1) ⟨booted, false, []⟩ events s ∧ s.exited = true ∧
    (transitions 1).Step s .schedule u ∧ u.log = s.log ++ [2] ∧ System.Path
    (transitions 1) u [.schedule] v ∧
    v.log = u.log ++ seen ∧ (transitions 1).Step v .schedule w ∧
    w.log = v.log ++ [2] ∧ seen.count 1 = 1 := by
  have ran : ∃ booted events s u v w, Sched.boot 1 = some booted ∧
      System.Path (transitions 1) ⟨booted, false, []⟩ events s ∧ s.exited = true ∧
      (transitions 1).Step s .schedule u ∧ u.log = s.log ++ [2] ∧
      (transitions 1).Step u .schedule v ∧
      v.log = u.log ++ [1] ∧ (transitions 1).Step v .schedule w ∧ w.log = v.log ++ [2] ∧
      BothQueued 2 1 u ∧ BothQueued 2 1 v := by
    refine ⟨_, [.spawn 2 fun _ => 0#64, .schedule, .spawn 3 fun _ => 0#64, .schedule, .schedule,
      .threadExit], _, _, _, _, rfl, .cons ⟨trivial, 0, rfl⟩
      (.cons ⟨trivial, 0, rfl⟩ (.cons ⟨trivial, 0, rfl⟩ (.cons ⟨trivial, 0, rfl⟩
        (.cons ⟨trivial, 0, rfl⟩ (.cons ⟨show (3 : ℕ) ≠ 1 by decide, 0, rfl⟩ (.nil _)))))), rfl,
        ⟨trivial, 0, rfl⟩, rfl, ⟨trivial, 0, rfl⟩, rfl,
      ⟨trivial, 0, rfl⟩, rfl, ⟨⟨0, rfl⟩, 1, rfl⟩, ⟨1, rfl⟩, 0, rfl⟩
  obtain ⟨booted, events, s, u, v, w, boot, run, exited, first, dispatched, next, log,
      last, again, inU, inV⟩ := ran
  have queued : ∀ q, System.Path.Visits (transitions 1) u [.schedule] v q → BothQueued 2 1 q := by
    intro q visits
    rcases visits_single visits with rfl | rfl
    · exact inU
    · exact inV
  have path : System.Path (transitions 1) u [.schedule] v := .cons next (.nil v)
  refine ⟨booted, events, s, u, v, w, [1], boot, run, exited, first, dispatched,
    path, log, last, again, ?_⟩
  exact (round_robin boot run).2 2 1 (by decide) .schedule u first dispatched [.schedule] v [1]
    path log (by decide) queued
    .schedule w last again

end Runs

end OscKernel.Soundness.RoundRobin
