import OscKernel.Soundness.RoundRobin

/-! # The shell waits for its child

After `exec` the shell tests `child->state` and calls `schedule` until the child is a zombie, and
the idle task frees zombies. On the run queue the idle task comes right after the shell, since a new
task is put in before the one that creates it. A task that ends is therefore followed by others and
the shell before the idle task has its turn, and the shell sees the zombie unless it loses the CPU
again before its test.
-/

namespace OscKernel.Soundness.ShellWait

open OscKernel.Lib OscKernel.Model OscKernel.Model.Sched OscKernel.Soundness.TaskQueues
  OscKernel.Soundness.RoundRobin

/-! ## Idle and shell -/

/-- Where `shell_main_thread` stands. -/
inductive ShellPc where
  /-- Outside of the loop on `child->state`. -/
  | prompt
  /-- Before its test. -/
  | test (child : ℕ)
  /-- Before its call of `schedule`. -/
  | yield (child : ℕ)
  /-- The shell was stopped. -/
  | stopped
  deriving DecidableEq

/-- Where `idle` stands. -/
inductive IdlePc where
  | killZombies
  | schedule
  deriving DecidableEq

structure Console where
  tasks : Dispatching
  shell : ShellPc
  idle : IdlePc

/-- A step of the task that runs, or a timer interrupt. `sys_stop` is one step: no timer interrupt
falls inside it. -/
inductive Event where
  | timer
  /-- A user process creates, calls `schedule`, exits, or stops another. -/
  | user (event : RoundRobin.Event)
  /-- A creation by the shell or a user process that fails after it took its number. -/
  | creationFailed
  /-- `uart_getc` of the shell calls `schedule`. -/
  | getc
  /-- `exec`; `create_user_process` returns the child. -/
  | exec (child : ℕ)
  | test
  | yield
  | killZombies
  | idleSchedule

/-- The task that runs is a user process. -/
def UserRuns (idle shell : ℕ) (s : Console) : Prop :=
  s.tasks.sched.current ≠ idle ∧ (s.tasks.sched.current = shell → s.shell = .stopped)

instance (idle shell : ℕ) (s : Console) : Decidable (UserRuns idle shell s) :=
  inferInstanceAs (Decidable (_ ∧ _))

def perform (idle shell fuel : ℕ) (s : Console) : Event → Option Console
  | .timer => (RoundRobin.perform fuel s.tasks .schedule).map fun t => { s with tasks := t }
  | .user .killZombies => none
  | .user event =>
    if UserRuns idle shell s then
      (RoundRobin.perform fuel s.tasks event).map fun t =>
        { s with tasks := t, shell := if t.sched.state shell = .zombie then .stopped else s.shell }
    else none
  | .creationFailed => some { s with tasks.sched.nrThreads := s.tasks.sched.nrThreads + 1#32 }
  | .getc =>
    if s.tasks.sched.current = shell ∧ s.shell = .prompt then
      (RoundRobin.perform fuel s.tasks .schedule).map fun t => { s with tasks := t }
    else none
  | .exec child =>
    if s.tasks.sched.current = shell ∧ s.shell = .prompt then
      (RoundRobin.perform fuel s.tasks (.spawn child fun _ => 0#64)).map fun t =>
        { s with tasks := t, shell := .test child }
    else none
  | .test =>
    match s.shell with
    | .test child =>
      if s.tasks.sched.current = shell then
        (s.tasks.sched.deref (some child)).map fun task =>
          { s with shell := if s.tasks.sched.state task = .zombie then .prompt else .yield child }
      else none
    | _ => none
  | .yield =>
    match s.shell with
    | .yield child =>
      if s.tasks.sched.current = shell then
        (RoundRobin.perform fuel s.tasks .schedule).map fun t =>
          { s with tasks := t, shell := .test child }
      else none
    | _ => none
  | .killZombies =>
    if s.tasks.sched.current = idle ∧ s.idle = .killZombies then
      (RoundRobin.perform fuel s.tasks .killZombies).map fun t =>
        { s with tasks := t, idle := .schedule }
    else none
  | .idleSchedule =>
    if s.tasks.sched.current = idle ∧ s.idle = .schedule then
      (RoundRobin.perform fuel s.tasks .schedule).map fun t =>
        { s with tasks := t, idle := .killZombies }
    else none

def transitions (idle shell : ℕ) : System Console Event :=
  ⟨fun s event t => ∃ fuel, perform idle shell fuel s event = some t⟩

/-- `start_kernel` creates the shell and goes on as the idle task. -/
def start (idle shell : ℕ) : Option Console :=
  (Sched.boot idle).bind fun booted => (booted.threadCreate shell).map fun s =>
    ⟨⟨s, false, []⟩, .prompt, .killZombies⟩

/-- The shell is in its loop on the state of the child. -/
def Waits (s : Console) (child : ℕ) : Prop := s.shell = .test child ∨ s.shell = .yield child

theorem not_waits {s : Console} (prompt : s.shell = .prompt) (child : ℕ) : ¬ Waits s child := by
  rw [Waits, prompt]
  simp

/-- The shell does not lose the CPU when its child is a zombie and the idle task is about to reclaim
it. -/
def TestsFirst (idle shell : ℕ) (s : Console) : Event → Prop
  | .timer | .yield =>
    s.tasks.sched.current = shell → ∀ child, Waits s child → s.tasks.sched.state child = .zombie →
      s.idle = .schedule ∨ s.tasks.sched.state idle ≠ .running
  | _ => True

/-! ## The invariant -/

/-- The task that the shell waits for is there, and when it is a zombie the idle task will not run
`kill_zombies` before the shell has its turn. -/
structure Sound (idle shell : ℕ) (s : Console) (running zombies : List ℕ) : Prop where
  queues : Queues s.tasks.sched running zombies
  apart : idle ≠ shell
  current : s.tasks.exited = false → running.head? = some s.tasks.sched.current
  exited : s.tasks.exited = true → s.tasks.sched.current ∉ running ∧ s.tasks.sched.current ≠ idle ∧
    running.head? ≠ some idle
  idleIn : s.tasks.sched.allocated idle = true
  shellIn : shell ∈ running
  order : idle ∈ running → Precedes shell idle running
  child : ∀ child, Waits s child → s.tasks.sched.allocated child = true ∧
    (s.tasks.sched.state child = .running ∨ s.tasks.sched.state child = .zombie)
  reclaims : ∀ child, Waits s child → s.tasks.sched.state child = .zombie →
    s.tasks.sched.current = idle → s.idle = .schedule

/-- Once the shell is stopped, nobody waits. -/
def Guarded (idle shell : ℕ) (s : Console) : Prop :=
  s.shell = .stopped ∨ ∃ running zombies, Sound idle shell s running zombies

section Steps

variable {idle shell fuel : ℕ} {s : Console} {running zombies : List ℕ} {t : Dispatching}

/-- After `schedule` the idle task runs only if the shell gave up the CPU. -/
theorem Sound.schedule (sound : Sound idle shell s running zombies)
    (performed : RoundRobin.perform fuel s.tasks .schedule = some t) :
    ∃ turned, Queues t.sched turned zombies ∧ t.exited = false ∧
      turned.head? = some t.sched.current ∧ shell ∈ turned ∧
      (idle ∈ turned → Precedes shell idle turned) ∧ SameTasks s.tasks.sched t.sched ∧
      (t.sched.current = idle → s.tasks.sched.current = shell) := by
  obtain ⟨queues, apart, current, exited, -, shellIn, order, -, -⟩ := sound
  obtain ⟨after, scheduled, result⟩ := Option.map_eq_some_iff.mp performed
  have same := sameTasks_schedule scheduled
  cases left : s.tasks.exited with
  | false =>
    obtain ⟨rest, shape⟩ := List.head?_eq_some_iff.mp (current left)
    rw [shape] at queues order shellIn
    cases rest with
    | nil =>
      rw [schedule_alone queues] at scheduled
      obtain rfl := Option.some.inj scheduled
      rw [if_pos rfl] at result
      subst result
      have alone : shell = s.tasks.sched.current := List.mem_singleton.mp shellIn
      exact ⟨_, queues, left, rfl, shellIn, order, same, fun _ => alone.symm⟩
    | cons next rest =>
      have other : next ≠ s.tasks.sched.current := fun same =>
        (List.nodup_cons.mp queues.runningNodup).1 (same ▸ List.mem_cons_self)
      have perm : (next :: rest ++ [s.tasks.sched.current]).Perm
          (s.tasks.sched.current :: next :: rest) :=
        List.perm_append_singleton _ _
      rw [schedule_turn queues] at scheduled
      obtain rfl := Option.some.inj scheduled
      rw [if_neg other] at result
      subst result
      refine ⟨next :: rest ++ [s.tasks.sched.current],
        ⟨rfl, queues.ring.rotate, perm.nodup_iff.mpr queues.runningNodup, fun x => ?_, queues.chain,
        queues.zombiesNodup, queues.zombieMembers⟩, rfl, rfl, perm.mem_iff.mpr shellIn,
        fun member => (order (perm.mem_iff.mp member)).turn, same, fun isIdle => ?_⟩
      · rw [perm.mem_iff]
        exact queues.runningMembers x
      · have isNext : next = idle := isIdle
        subst isNext
        exact (order (List.mem_cons_of_mem _ List.mem_cons_self)).unique queues.runningNodup
  | true =>
    obtain ⟨gone, notIdle, headIdle⟩ := exited left
    obtain ⟨next, rest, shape⟩ := List.exists_cons_of_ne_nil (List.ne_nil_of_mem shellIn)
    rw [shape] at queues gone headIdle shellIn order
    have other : s.tasks.sched.current ≠ next := fun same => gone (same ▸ List.mem_cons_self)
    rw [schedule_takeOver queues other] at scheduled
    obtain rfl := Option.some.inj scheduled
    rw [if_neg other.symm] at result
    subst result
    refine ⟨next :: rest, ⟨queues.head, queues.ring, queues.runningNodup, queues.runningMembers,
      queues.chain, queues.zombiesNodup, queues.zombieMembers⟩, rfl, rfl, shellIn,
      order, same, fun isIdle => ?_⟩
    exact absurd (congrArg some isIdle) headIdle

end Steps

/-- Allocated it stays, in its state or as a zombie. -/
def Stays (s t : Sched) (task : ℕ) : Prop :=
  t.allocated task = true ∧ (t.state task = s.state task ∨ t.state task = .zombie)

theorem stays_of_same {s t : Sched} (same : SameTasks s t) {task : ℕ}
    (allocated : s.allocated task = true) :
    Stays s t task := by
  refine ⟨?_, .inl ?_⟩
  · rw [same.allocated]
    exact allocated
  · rw [same.state]

theorem stays_of_retired {s t u : Sched} {retired task : ℕ}
    (retires : s.setState (some retired) .zombie = some t) (same : SameTasks t u)
    (allocated : s.allocated task = true) : Stays s u task := by
  obtain ⟨_, -, rfl⟩ := Option.map_eq_some_iff.mp retires
  refine ⟨?_, ?_⟩
  · rw [same.allocated]
    exact allocated
  · rw [same.state]
    change Function.update s.state _ TaskState.zombie task = _ ∨
      Function.update s.state _ TaskState.zombie task = _
    rw [Function.update_apply]
    split
    · exact .inr rfl
    · exact .inl rfl

private theorem stays_spawn {s t : Sched} {new task : ℕ} {handlers : Fin 32 → Word}
    (result : s.spawn new handlers = some t) (allocated : s.allocated task = true) :
    Stays s t task := by
  obtain ⟨fresh, result⟩ := Option.ite_none_left_eq_some.mp result
  have other : task ≠ new := by
    rintro rfl
    exact fresh allocated
  have same := sameTasks_enqueue result
  refine ⟨?_, .inl ?_⟩
  · rw [same.allocated]
    exact (Function.update_of_ne other _ _).trans allocated
  · rw [same.state]
    exact Function.update_of_ne other _ _

private theorem stays_leaveQueue {s t : Sched} {task : ℕ} (result : s.leaveQueue = some t)
    (allocated : s.allocated task = true) :
    Stays s t task := by
  obtain ⟨first, retires, result⟩ := Option.bind_eq_some_iff.mp result
  obtain ⟨second, left, pushed⟩ := Option.bind_eq_some_iff.mp result
  exact stays_of_retired retires
    ((sameTasks_dequeue left).trans (sameTasks_pushZombie pushed)) allocated

private theorem stays_sysStop {s : Sched} {task fuel : ℕ} {pid : BitVec 32} {result : ℤ × Sched}
    (stopped : s.sysStop pid fuel = some result) (allocated : s.allocated task = true) :
    Stays s result.2 task := by
  have unchanged : SameTasks s s := ⟨rfl, rfl, rfl⟩
  obtain ⟨outcome, -, stopped⟩ := Option.bind_eq_some_iff.mp stopped
  split at stopped
  · obtain rfl := Option.some.inj stopped
    exact stays_of_same unchanged allocated
  · split at stopped
    · obtain rfl := Option.some.inj stopped
      exact stays_of_same unchanged allocated
    · obtain ⟨first, left, stopped⟩ := Option.bind_eq_some_iff.mp stopped
      obtain ⟨second, retires, stopped⟩ := Option.bind_eq_some_iff.mp stopped
      obtain ⟨third, pushed, stopped⟩ := Option.bind_eq_some_iff.mp stopped
      obtain rfl := Option.some.inj stopped
      have same := sameTasks_dequeue left
      obtain ⟨stays, state⟩ :=
        stays_of_retired retires (sameTasks_pushZombie pushed) (same.allocated ▸ allocated)
      refine ⟨stays, ?_⟩
      rw [← same.state]
      exact state

theorem Stays.child {s t : Sched} {task : ℕ} (stays : Stays s t task)
    (state : s.state task = .running ∨ s.state task = .zombie) :
    t.allocated task = true ∧ (t.state task = .running ∨ t.state task = .zombie) := by
  obtain ⟨allocated, same | zombie⟩ := stays
  · rw [same]
    exact ⟨allocated, state⟩
  · exact ⟨allocated, .inr zombie⟩

section Steps

variable {idle shell fuel : ℕ} {s : Console} {running zombies : List ℕ} {t : Dispatching}

/-- The step of a user process leaves it running, so the idle task is not. -/
theorem Sound.user (sound : Sound idle shell s running zombies)
    (notIdle : s.tasks.sched.current ≠ idle) (same : t.sched.current = s.tasks.sched.current)
    {running' zombies' : List ℕ} (queues : Queues t.sched running' zombies')
    (current : t.exited = false → running'.head? = some t.sched.current)
    (exited : t.exited = true → t.sched.current ∉ running' ∧ running'.head? ≠ some idle)
    (shellIn : shell ∈ running') (order : idle ∈ running' → Precedes shell idle running')
    (stays : ∀ task, s.tasks.sched.allocated task = true → Stays s.tasks.sched t.sched task) :
    Sound idle shell { s with tasks := t } running' zombies' where
  queues := queues
  apart := sound.apart
  current := current
  exited left := ⟨(exited left).1, same ▸ notIdle, (exited left).2⟩
  idleIn := (stays idle sound.idleIn).1
  shellIn := shellIn
  order := order
  child c waits := by
    obtain ⟨allocated, state⟩ := sound.child c waits
    exact (stays c allocated).child state
  reclaims _ _ _ isIdle := absurd (same.symm.trans isIdle) notIdle

theorem Sound.spawn (sound : Sound idle shell s running zombies)
    (notIdle : s.tasks.sched.current ≠ idle) {task : ℕ} {handlers : Fin 32 → Word}
    (performed : RoundRobin.perform fuel s.tasks (.spawn task handlers) = some t) :
    Sound idle shell { s with tasks := t } (running ++ [task]) zombies ∧
    t.sched.state task = .running ∧
      t.sched.allocated task = true := by
  obtain ⟨runs, performed⟩ := Option.ite_none_left_eq_some.mp performed
  obtain ⟨created, spawned, rfl⟩ := Option.map_eq_some_iff.mp performed
  have runs := Bool.eq_false_of_not_eq_true runs
  cases fresh : s.tasks.sched.allocated task with
  | true =>
    rw [Sched.spawn, if_pos fresh] at spawned
    cases spawned
  | false =>
    obtain ⟨after, result, queues, same⟩ := sound.queues.spawn fresh handlers
    obtain rfl := Option.some.inj (result.symm.trans spawned)
    obtain ⟨rest, shape⟩ := List.head?_eq_some_iff.mp (sound.current runs)
    have member :=
      (queues.runningMembers task).mp (List.mem_append_right running (List.mem_singleton_self task))
    have notTask : idle ∈ running ++ [task] → idle ∈ running := by
      intro inside
      refine (List.mem_append.mp inside).resolve_right fun last => ?_
      have idleIn := sound.idleIn
      rw [List.mem_singleton.mp last, fresh] at idleIn
      cases idleIn
    refine ⟨sound.user notIdle same queues (fun _ => ?_) (fun left => ?_)
      (List.mem_append_left _ sound.shellIn)
      (fun inside => ?_) (fun other allocated => stays_spawn spawned allocated), member.2, member.1⟩
    · rw [same, shape]
      rfl
    · cases runs.symm.trans left
    · have before := sound.order (notTask inside)
      rw [shape] at before ⊢
      exact before.add notIdle task

theorem Sound.threadExit (sound : Sound idle shell s running zombies)
    (notIdle : s.tasks.sched.current ≠ idle) (notShell : s.tasks.sched.current ≠ shell)
    (performed : RoundRobin.perform fuel s.tasks .threadExit = some t) :
    ∃ running zombies, Sound idle shell { s with tasks := t } running zombies := by
  obtain ⟨runs, performed⟩ := Option.ite_none_left_eq_some.mp performed
  obtain ⟨left, leaves, rfl⟩ := Option.map_eq_some_iff.mp performed
  obtain ⟨rest, shape⟩ :=
    List.head?_eq_some_iff.mp (sound.current (Bool.eq_false_of_not_eq_true runs))
  have queues := sound.queues
  have shellIn := sound.shellIn
  have order := sound.order
  rw [shape] at queues shellIn order
  have shellStays : shell ∈ rest := (List.mem_cons.mp shellIn).resolve_left notShell.symm
  have others : rest ++ [] ≠ [] := by
    rw [List.append_nil]
    exact List.ne_nil_of_mem shellStays
  have split : Queues s.tasks.sched ([] ++ s.tasks.sched.current :: rest) zombies := queues
  obtain ⟨after, result, queuesAfter, same⟩ := split.leaveQueue others
  obtain rfl := Option.some.inj (result.symm.trans leaves)
  have gone := (List.nodup_cons.mp queues.runningNodup).1
  refine ⟨rest, s.tasks.sched.current :: zombies,
    sound.user notIdle same queuesAfter nofun (fun _ => ⟨?_, fun head => ?_⟩)
    shellStays (fun inside => ?_) fun other allocated => stays_leaveQueue leaves allocated⟩
  · rw [same]
    exact gone
  · -- only the shell stands right before the idle task
    obtain ⟨later, rfl⟩ := List.head?_eq_some_iff.mp head
    exact notShell ((order (List.mem_cons_of_mem _ List.mem_cons_self)).unique queues.runningNodup)
  · have erased := (order (List.mem_cons_of_mem _ inside)).erase notShell notIdle
    rwa [List.erase_cons_head] at erased

theorem Sound.sysStop (sound : Sound idle shell s running zombies)
    (notIdle : s.tasks.sched.current ≠ idle) (notShell : s.tasks.sched.current ≠ shell)
    {pid : BitVec 32} (performed : RoundRobin.perform fuel s.tasks (.sysStop pid) = some t) :
    t.sched.state shell = .zombie ∨
    ∃ running zombies, Sound idle shell { s with tasks := t } running zombies := by
  obtain ⟨runs, performed⟩ := Option.ite_none_left_eq_some.mp performed
  obtain ⟨result, stopped, rfl⟩ := Option.map_eq_some_iff.mp performed
  have runs := Bool.eq_false_of_not_eq_true runs
  have queues := sound.queues
  obtain ⟨outcome, search, -⟩ := Option.bind_eq_some_iff.mp
    (show (s.tasks.sched.findTask pid fuel).bind _ = some result from stopped)
  by_cases nobody : ∀ curr, outcome = some curr → curr = s.tasks.sched.current
  · rw [sysStop_unchanged search nobody] at stopped
    obtain rfl := Option.some.inj stopped
    exact .inr ⟨running, zombies, sound⟩
  · simp only [not_forall] at nobody
    obtain ⟨curr, rfl, other⟩ := nobody
    have member := (queues.findTask pid).1 fuel curr search
    obtain ⟨rest, head⟩ := List.head?_eq_some_iff.mp (sound.current runs)
    obtain ⟨before, after, shape⟩ := List.append_of_mem member
    have apart : curr ∉ before := by
      have nodup := queues.runningNodup
      rw [shape] at nodup
      exact fun inside => (List.nodup_append.mp nodup).2.2 curr inside curr List.mem_cons_self rfl
    have erased : running.erase curr = before ++ after := by
      rw [shape, List.erase_append_right _ apart, List.erase_cons_head]
    have currentStays : (before ++ after).head? = some s.tasks.sched.current := by
      rw [← erased, head, List.erase_cons_tail (by simpa using Ne.symm other)]
      rfl
    have others : after ++ before ≠ [] := by
      have stays := List.mem_of_mem_head? currentStays
      rw [List.mem_append, Or.comm, ← List.mem_append] at stays
      exact List.ne_nil_of_mem stays
    rw [shape] at queues
    obtain ⟨final, stops, queuesAfter, same⟩ := queues.stop search other others
    obtain rfl := Option.some.inj (stops.symm.trans stopped)
    by_cases isShell : curr = shell
    · subst isShell
      exact .inl ((queuesAfter.zombieMembers curr).mp List.mem_cons_self).2
    · have shellStays : shell ∈ before ++ after := by
        rw [← erased]
        exact (List.mem_erase_of_ne (Ne.symm isShell)).mpr sound.shellIn
      refine .inr ⟨before ++ after, curr :: zombies,
        sound.user notIdle same queuesAfter (fun _ => ?_) (fun left => ?_)
        shellStays (fun inside => ?_) fun other allocated => stays_sysStop stopped allocated⟩
      · rw [same]
        exact currentStays
      · cases runs.symm.trans left
      · rw [← erased] at inside ⊢
        have notCurr : curr ≠ idle := by
          rintro rfl
          exact sound.queues.runningNodup.not_mem_erase inside
        exact (sound.order (List.mem_of_mem_erase inside)).erase isShell notCurr

/-- The idle task reclaims no child that the shell waits for. -/
theorem Sound.killZombies (sound : Sound idle shell s running zombies)
    (current : s.tasks.sched.current = idle) (here : s.idle = .killZombies)
    (performed : RoundRobin.perform fuel s.tasks .killZombies = some t) :
    Sound idle shell { s with tasks := t, idle := .schedule } running [] := by
  obtain ⟨runs, performed⟩ := Option.ite_none_left_eq_some.mp performed
  obtain ⟨reclaimed, killed, rfl⟩ := Option.map_eq_some_iff.mp performed
  have runs := Bool.eq_false_of_not_eq_true runs
  obtain ⟨result, queues⟩ := sound.queues.killZombies fuel
  rw [result] at killed
  obtain ⟨-, same⟩ := Option.ite_none_right_eq_some.mp killed
  obtain rfl := Option.some.inj same
  have kept : ∀ {task}, s.tasks.sched.allocated task = true → s.tasks.sched.state task = .running →
      (forget { s.tasks.sched with zombieQueue := none } zombies).allocated task = true := by
    intro task allocated state
    have notZombie : task ∉ zombies := fun inside => by
      cases state.symm.trans ((sound.queues.zombieMembers task).mp inside).2
    simp [forget, allocated, notZombie]
  have idleRuns : s.tasks.sched.state idle = .running := by
    have head := List.mem_of_mem_head? (sound.current runs)
    exact ((sound.queues.runningMembers idle).mp (current ▸ head)).2
  refine ⟨queues, sound.apart, sound.current, fun left => ?_, kept sound.idleIn idleRuns,
    sound.shellIn, sound.order, fun child waits => ?_, fun _ _ _ _ => rfl⟩
  · cases runs.symm.trans left
  · obtain ⟨allocated, state⟩ := sound.child child waits
    have state : s.tasks.sched.state child = .running := by
      refine state.resolve_right fun zombie => ?_
      cases here.symm.trans (sound.reclaims child waits zombie current)
    exact ⟨kept allocated state, .inl state⟩

end Steps

section Runs

variable {idle shell : ℕ} {s t : Console} {event : Event}

/-- After `schedule`, whoever called it. -/
theorem Sound.turned {running zombies : List ℕ} (sound : Sound idle shell s running zombies)
    {fuel : ℕ} {tasks : Dispatching}
    (performed : RoundRobin.perform fuel s.tasks .schedule = some tasks) {pc : ShellPc}
    {idlePc : IdlePc} (waits : ∀ child, Waits { s with shell := pc } child → Waits s child)
    (keeps : tasks.sched.current = idle → idle ∈ running → s.tasks.sched.current = shell →
      ∀ child, Waits s child → s.tasks.sched.state child = .zombie → idlePc = .schedule) :
    Guarded idle shell { tasks := tasks, shell := pc, idle := idlePc } := by
  obtain ⟨turned, queues, notExited, head, shellIn, order, same, last⟩ := sound.schedule performed
  have state : ∀ task, tasks.sched.state task = s.tasks.sched.state task := congrFun same.state
  have allocated : ∀ task, tasks.sched.allocated task = s.tasks.sched.allocated task :=
    congrFun same.allocated
  refine .inr ⟨turned, zombies, queues, sound.apart, fun _ => head, fun left => ?_,
    (allocated idle).trans sound.idleIn, shellIn, order, fun child waiting => ?_,
    fun child waiting zombie isIdle => ?_⟩
  · cases notExited.symm.trans left
  · rw [allocated child, state child]
    exact sound.child child (waits child waiting)
  · have inTurned : idle ∈ turned := List.mem_of_mem_head? (isIdle ▸ head)
    have inRunning : idle ∈ running := by
      rw [sound.queues.runningMembers, ← allocated, ← state]
      exact (queues.runningMembers idle).mp inTurned
    rw [state child] at zombie
    exact keeps isIdle inRunning (last isIdle) child (waits child waiting) zombie

theorem Guarded.step (guarded : Guarded idle shell s)
    (step : ((transitions idle shell).restrict (TestsFirst idle shell)).Step s event t) :
    Guarded idle shell t := by
  obtain ⟨first, fuel, performed⟩ := step
  by_cases stopped : s.shell = .stopped
  · left
    cases event with
    | timer =>
      obtain ⟨tasks, -, rfl⟩ := Option.map_eq_some_iff.mp performed
      exact stopped
    | user event =>
      cases event with
      | killZombies => cases performed
      | _ =>
        obtain ⟨-, performed⟩ := Option.ite_none_right_eq_some.mp performed
        obtain ⟨tasks, -, rfl⟩ := Option.map_eq_some_iff.mp performed
        simp only [stopped, ite_self]
    | creationFailed =>
      obtain rfl := Option.some.inj performed
      exact stopped
    | getc =>
      obtain ⟨⟨-, prompt⟩, -⟩ := Option.ite_none_right_eq_some.mp performed
      cases stopped.symm.trans prompt
    | exec child =>
      obtain ⟨⟨-, prompt⟩, -⟩ := Option.ite_none_right_eq_some.mp performed
      cases stopped.symm.trans prompt
    | test => simp [perform, stopped] at performed
    | yield => simp [perform, stopped] at performed
    | killZombies =>
      obtain ⟨-, performed⟩ := Option.ite_none_right_eq_some.mp performed
      obtain ⟨tasks, -, rfl⟩ := Option.map_eq_some_iff.mp performed
      exact stopped
    | idleSchedule =>
      obtain ⟨-, performed⟩ := Option.ite_none_right_eq_some.mp performed
      obtain ⟨tasks, -, rfl⟩ := Option.map_eq_some_iff.mp performed
      exact stopped
  · obtain ⟨running, zombies, sound⟩ := guarded.resolve_left stopped
    have runs : idle ∈ running → s.tasks.sched.state idle = .running :=
      fun member => ((sound.queues.runningMembers idle).mp member).2
    cases event with
    | timer =>
      obtain ⟨tasks, ran, rfl⟩ := Option.map_eq_some_iff.mp performed
      exact sound.turned ran (fun _ waits => waits) fun _ member isShell child waits zombie =>
        (first isShell child waits zombie).resolve_right fun stopped => stopped (runs member)
    | user event =>
      have moved : ∀ {tasks : Dispatching},
          (tasks.sched.state shell = .zombie ∨ Guarded idle shell { s with tasks := tasks }) →
          Guarded idle shell { s with tasks := tasks, shell := if tasks.sched.state shell =
            .zombie then .stopped else s.shell } := by
        intro tasks either
        by_cases zombie : tasks.sched.state shell = .zombie
        · exact .inl (if_pos zombie)
        · rw [if_neg zombie]
          exact either.resolve_left zombie
      cases event with
      | killZombies => cases performed
      | schedule =>
        obtain ⟨⟨-, notShell⟩, performed⟩ := Option.ite_none_right_eq_some.mp performed
        obtain ⟨tasks, ran, rfl⟩ := Option.map_eq_some_iff.mp performed
        exact moved (.inr (sound.turned ran (fun _ waits => waits) fun _ _ isShell =>
          absurd (notShell isShell) stopped))
      | spawn task handlers =>
        obtain ⟨⟨notIdle, -⟩, performed⟩ := Option.ite_none_right_eq_some.mp performed
        obtain ⟨tasks, ran, rfl⟩ := Option.map_eq_some_iff.mp performed
        exact moved (.inr (.inr ⟨_, _, (sound.spawn notIdle ran).1⟩))
      | threadExit =>
        obtain ⟨⟨notIdle, notShell⟩, performed⟩ := Option.ite_none_right_eq_some.mp performed
        obtain ⟨tasks, ran, rfl⟩ := Option.map_eq_some_iff.mp performed
        exact moved (.inr (.inr (sound.threadExit notIdle (mt notShell stopped) ran)))
      | sysStop pid =>
        obtain ⟨⟨notIdle, notShell⟩, performed⟩ := Option.ite_none_right_eq_some.mp performed
        obtain ⟨tasks, ran, rfl⟩ := Option.map_eq_some_iff.mp performed
        exact moved ((sound.sysStop notIdle (mt notShell stopped) ran).imp_right .inr)
    | creationFailed =>
      obtain rfl := Option.some.inj performed
      refine .inr ⟨running, zombies, ⟨sound.queues.head, sound.queues.ring,
        sound.queues.runningNodup, sound.queues.runningMembers, sound.queues.chain,
        sound.queues.zombiesNodup, sound.queues.zombieMembers⟩, sound.apart,
        sound.current, sound.exited,
        sound.idleIn, sound.shellIn, sound.order, sound.child, sound.reclaims⟩
    | getc =>
      obtain ⟨⟨-, prompt⟩, performed⟩ := Option.ite_none_right_eq_some.mp performed
      obtain ⟨tasks, ran, rfl⟩ := Option.map_eq_some_iff.mp performed
      refine sound.turned ran (fun _ waits => waits) fun _ _ _ child waits _ => ?_
      rw [Waits, prompt] at waits
      simp at waits
    | exec child =>
      obtain ⟨⟨isShell, prompt⟩, performed⟩ := Option.ite_none_right_eq_some.mp performed
      obtain ⟨tasks, ran, rfl⟩ := Option.map_eq_some_iff.mp performed
      have notIdle : s.tasks.sched.current ≠ idle :=
        fun isIdle => sound.apart (isIdle.symm.trans isShell)
      obtain ⟨created, state, allocated⟩ := sound.spawn notIdle ran
      refine .inr ⟨_, _, created.queues, sound.apart, created.current, created.exited,
        created.idleIn, created.shellIn, created.order, fun other waits => ?_,
        fun other waits zombie => ?_⟩
      all_goals
        obtain rfl : child = other := by simpa [Waits] using waits
      · exact ⟨allocated, .inl state⟩
      · cases state.symm.trans zombie
    | test =>
      simp only [perform] at performed
      split at performed
      · rename_i child here
        obtain ⟨-, performed⟩ := Option.ite_none_right_eq_some.mp performed
        obtain ⟨task, followed, rfl⟩ := Option.map_eq_some_iff.mp performed
        have waits : ∀ {other},
            Waits { s with
              shell :=
                if s.tasks.sched.state task = .zombie then .prompt else .yield child } other →
            Waits s other := by
          intro other waits
          rw [Waits] at waits
          split at waits
          · simp at waits
          · have same : child = other := by simpa using waits
            exact .inl (same ▸ here)
        exact .inr ⟨running, zombies, ⟨sound.queues, sound.apart, sound.current, sound.exited,
          sound.idleIn, sound.shellIn, sound.order, fun other waiting => sound.child other
          (waits waiting), fun other waiting => sound.reclaims other (waits waiting)⟩⟩
      · cases performed
    | yield =>
      simp only [perform] at performed
      split at performed
      · rename_i child here
        obtain ⟨isShell, performed⟩ := Option.ite_none_right_eq_some.mp performed
        obtain ⟨tasks, ran, rfl⟩ := Option.map_eq_some_iff.mp performed
        refine sound.turned ran (fun other waits => ?_) fun _ member isShell other waits zombie =>
          (first isShell other waits zombie).resolve_right fun stopped => stopped (runs member)
        have same : child = other := by simpa [Waits] using waits
        exact .inr (same ▸ here)
      · cases performed
    | killZombies =>
      obtain ⟨⟨isIdle, here⟩, performed⟩ := Option.ite_none_right_eq_some.mp performed
      obtain ⟨tasks, ran, rfl⟩ := Option.map_eq_some_iff.mp performed
      exact .inr ⟨running, [], sound.killZombies isIdle here ran⟩
    | idleSchedule =>
      obtain ⟨⟨isIdle, -⟩, performed⟩ := Option.ite_none_right_eq_some.mp performed
      obtain ⟨tasks, ran, rfl⟩ := Option.map_eq_some_iff.mp performed
      exact sound.turned ran (fun _ waits => waits) fun _ _ isShell =>
        absurd (isIdle.symm.trans isShell) sound.apart

end Runs

section Runs

variable {idle shell : ℕ} {booted s t : Console} {events : List Event} {event : Event}

private theorem start_sound (boot : start idle shell = some booted) :
    ∃ running zombies, Sound idle shell booted running zombies := by
  obtain ⟨first, bootIdle, rest⟩ := Option.bind_eq_some_iff.mp boot
  obtain ⟨second, create, rfl⟩ := Option.map_eq_some_iff.mp rest
  obtain ⟨idleQueues, current⟩ := queues_boot bootIdle
  cases fresh : first.allocated shell with
  | true =>
    rw [Sched.threadCreate, Sched.spawn, if_pos fresh] at create
    cases create
  | false =>
    have idleIn := idleQueues.allocated idle List.mem_cons_self
    have apart : idle ≠ shell := by
      rintro rfl
      cases fresh.symm.trans idleIn
    obtain ⟨after, result, both, same⟩ := idleQueues.spawn fresh fun _ => 0#64
    obtain rfl := Option.some.inj (result.symm.trans create)
    refine ⟨[idle, shell], [], both, apart, fun _ => ?_, fun left => absurd left Bool.false_ne_true,
      both.allocated idle List.mem_cons_self, List.mem_cons_of_mem idle List.mem_cons_self,
      fun _ => .inr ⟨[], rfl⟩, fun child waits => absurd waits (not_waits rfl child),
      fun child waits => absurd waits (not_waits rfl child)⟩
    rw [same]
    exact congrArg some current.symm

/-- When the shell gives up the CPU although its child is a zombie and the idle task is before
`kill_zombies`, the next step can free the child. -/
theorem Sound.freed {running zombies : List ℕ} (sound : Sound idle shell s running zombies)
    (step : (transitions idle shell).Step s event t) (late : ¬ TestsFirst idle shell s event) :
    ∃ u child, (transitions idle shell).Step t .killZombies u ∧ Waits u child ∧
      u.tasks.sched.allocated child = false := by
  obtain ⟨fuel, performed⟩ := step
  have freed : ∀ {tasks : Dispatching} {pc : ShellPc}
      {child : ℕ}, RoundRobin.perform fuel s.tasks .schedule = some tasks →
      s.tasks.sched.current = shell → s.tasks.sched.state child = .zombie →
      s.tasks.sched.allocated child = true →
      s.idle ≠ .schedule → s.tasks.sched.state idle = .running →
      (pc = .test child ∨ pc = .yield child) →
      ∃ u child, (transitions idle shell).Step ⟨tasks, pc, s.idle⟩ .killZombies u ∧ Waits u child ∧
        u.tasks.sched.allocated child = false := by
    intro tasks pc child ran isShell zombie allocated here idleRuns waits
    obtain ⟨turned, queues, notExited, head, -, -, same, -⟩ := sound.schedule ran
    have atKill : s.idle = .killZombies := by
      cases pc : s.idle with
      | killZombies => rfl
      | schedule => exact absurd pc here
    have runs : s.tasks.exited = false := by
      cases left : s.tasks.exited with
      | false => rfl
      | true => exact absurd sound.shellIn (isShell ▸ (sound.exited left).1)
    -- the idle task is next
    have isIdle : tasks.sched.current = idle := by
      obtain ⟨rest, shape⟩ := List.head?_eq_some_iff.mp (sound.current runs)
      have idleIn := (sound.queues.runningMembers idle).mpr ⟨sound.idleIn, idleRuns⟩
      have nodup := sound.queues.runningNodup
      have order := sound.order idleIn
      rw [shape, ← isShell] at order
      rw [shape] at nodup
      have next := order.second nodup (isShell ▸ sound.apart.symm)
      obtain ⟨others, rfl⟩ := List.head?_eq_some_iff.mp next
      have turn := schedule_turn (shape ▸ sound.queues)
      obtain ⟨after, scheduled, result⟩ := Option.map_eq_some_iff.mp ran
      obtain rfl := Option.some.inj (turn.symm.trans scheduled)
      have other : idle ≠ s.tasks.sched.current := isShell ▸ sound.apart
      rw [if_neg other] at result
      rw [← result]
    have member : child ∈ zombies := (sound.queues.zombieMembers child).mpr ⟨allocated, zombie⟩
    have reclaimed := (queues.killZombies zombies.length).1
    rw [if_pos (le_refl _)] at reclaimed
    refine ⟨⟨{ tasks with sched := forget { tasks.sched with zombieQueue := none } zombies }, pc,
      .schedule⟩, child, ⟨zombies.length, ?_⟩, waits, ?_⟩
    · simp only [perform, isIdle, atKill, and_self, if_true, RoundRobin.perform, notExited,
        Bool.false_eq_true, if_false, reclaimed, Option.map_some]
    · simp [forget, member]
  cases event with
  | timer =>
    simp only [TestsFirst, not_forall, not_or, not_not] at late
    obtain ⟨isShell, child, waits, zombie, here, idleRuns⟩ := late
    obtain ⟨tasks, ran, rfl⟩ := Option.map_eq_some_iff.mp performed
    exact freed ran isShell zombie (sound.child child waits).1 here idleRuns waits
  | yield =>
    simp only [TestsFirst, not_forall, not_or, not_not] at late
    obtain ⟨isShell, child, waits, zombie, here, idleRuns⟩ := late
    simp only [perform] at performed
    split at performed
    · rename_i other atYield
      obtain ⟨-, performed⟩ := Option.ite_none_right_eq_some.mp performed
      obtain ⟨tasks, ran, rfl⟩ := Option.map_eq_some_iff.mp performed
      have same : other = child := by simpa [Waits, atYield] using waits
      exact freed ran isShell zombie (sound.child child waits).1 here
        idleRuns (.inl (congrArg _ same))
    · cases performed
  | _ => exact absurd trivial late

/-- In every run in which the shell does not lose the CPU while its child is a zombie and the idle
task is before `kill_zombies`, the child is not freed while the shell waits; and after any other
step it can be freed at once. -/
theorem child_is_live (boot : start idle shell = some booted)
    (run : System.Path ((transitions idle shell).restrict (TestsFirst idle shell))
      booted events s) : (∀ child, Waits s child → s.tasks.sched.allocated child = true) ∧
    ∀ event t, (transitions idle shell).Step s event t → ¬ TestsFirst idle shell s event →
      ∃ u child, (transitions idle shell).Step t .killZombies u ∧ Waits u child ∧
      u.tasks.sched.allocated child = false := by
  have guarded : Guarded idle shell s :=
    run.invariant (P := Guarded idle shell) (fun guarded step => guarded.step step)
      (.inr (start_sound boot))
  obtain stopped | ⟨running, zombies, sound⟩ := guarded
  · refine ⟨fun child waits => ?_, fun event t step late => ?_⟩
    · simp [Waits, stopped] at waits
    · cases event with
      | timer | yield => simp [TestsFirst, Waits, stopped] at late
      | _ => exact absurd trivial late
  · exact ⟨fun child waits => (sound.child child waits).1,
      fun event t step late => sound.freed step late⟩

/-- The child exits, and a timer interrupt takes the CPU from the shell before its test. -/
def interrupted : List Event :=
  [.killZombies, .idleSchedule, .exec 3, .test, .yield, .killZombies, .idleSchedule,
    .user .threadExit, .user .schedule, .timer, .killZombies]

theorem child_is_live_created : ∃ booted s, start 1 2 = some booted ∧
    System.Path ((transitions 1 2).restrict (TestsFirst 1 2)) booted [.killZombies,
      .idleSchedule, .exec 3] s ∧
    Waits s 3 ∧ s.tasks.sched.allocated 3 = true := by
  have ran : ∃ booted s, start 1 2 = some booted ∧
      System.Path ((transitions 1 2).restrict (TestsFirst 1 2)) booted [.killZombies, .idleSchedule,
        .exec 3] s ∧ Waits s 3 :=
    ⟨_, _, rfl, .cons ⟨trivial, 0, rfl⟩
      (.cons ⟨trivial, 0, rfl⟩ (.cons ⟨trivial, 0, rfl⟩ (.nil _))), .inl rfl⟩
  obtain ⟨booted, s, boot, run, waits⟩ := ran
  exact ⟨booted, s, boot, run, waits, (child_is_live boot run).1 3 waits⟩

theorem child_freed : ∃ booted s, start 1 2 = some booted ∧
    System.Path (transitions 1 2) booted interrupted s ∧
    Waits s 3 ∧ s.tasks.sched.allocated 3 = false :=
  ⟨_, _, rfl, .cons ⟨0, rfl⟩
    (.cons ⟨0, rfl⟩ (.cons ⟨0, rfl⟩ (.cons ⟨0, rfl⟩ (.cons ⟨0, rfl⟩ (.cons ⟨0, rfl⟩
    (.cons ⟨0, rfl⟩ (.cons ⟨0, rfl⟩
      (.cons ⟨0, rfl⟩ (.cons ⟨0, rfl⟩ (.cons ⟨1, rfl⟩ (.nil _))))))))))), .inl rfl, rfl⟩

end Runs

end OscKernel.Soundness.ShellWait
