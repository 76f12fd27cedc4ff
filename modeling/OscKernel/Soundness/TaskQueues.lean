import OscKernel.Lib.Ring
import OscKernel.Lib.System
import OscKernel.Model.Sched

/-! # The run queue and the zombie queue partition the tasks

Each queue operation is described once, on rings: `enqueue` inserts before the head, `dequeue`
unlinks any member of a ring of at least two, `schedule` rotates at most. From these follow one
preservation lemma for each transition and the partition in every reachable state, provided that no
task exits while it is alone on the run queue: `dequeue` then leaves `run_queue` at the zombie
(`queues_broken`).
-/

namespace OscKernel.Soundness.TaskQueues

open OscKernel.Lib OscKernel.Model OscKernel.Model.Sched

/-! ## Transitions -/

inductive Event where
  | threadCreate (task : ℕ)
  | createUserProcess (task : ℕ)
  | sysFork (task : ℕ)
  /-- A creation that runs out of memory after it took its number. -/
  | creationFailed
  | schedule
  | threadExit
  | sysStop (pid : BitVec 32)
  | sysKill (pid signum : BitVec 32)
  | sysSignal (signum : BitVec 32) (handler : Word)
  | killZombies

/-- One operation by the current task, its loops bounded by `fuel`. -/
def perform (fuel : ℕ) (s : Sched) : Event → Option Sched
  | .threadCreate task => s.threadCreate task
  | .createUserProcess task => s.createUserProcess task
  | .sysFork task => s.sysFork task
  | .creationFailed => some { s with nrThreads := s.nrThreads + 1#32 }
  | .schedule => s.schedule
  | .threadExit => s.threadExit
  | .sysStop pid => (s.sysStop pid fuel).map Prod.snd
  | .sysKill pid signum => (s.sysKill pid signum fuel).map Prod.snd
  | .sysSignal signum handler => (s.sysSignal signum handler).map Prod.snd
  | .killZombies => s.killZombies fuel

def transitions : System Sched Event := ⟨fun s event t => ∃ fuel, perform fuel s event = some t⟩

/-- The queues hold what they should. -/
structure Queues (s : Sched) (running zombies : List ℕ) : Prop where
  head : s.runQueue = running.head?
  ring : Ring s.next s.prev running
  runningNodup : running.Nodup
  runningMembers : ∀ task, task ∈ running ↔ s.allocated task = true ∧ s.state task = .running
  chain : Chain s.next s.zombieQueue zombies
  zombiesNodup : zombies.Nodup
  zombieMembers : ∀ task, task ∈ zombies ↔ s.allocated task = true ∧ s.state task = .zombie

/-- The run queue is a ring of exactly the running tasks and the zombie queue a chain of exactly the
zombies; the task that was dispatched last is one of the running. -/
def Partitioned (s : Sched) : Prop :=
  ∃ running zombies, Queues s running zombies ∧ s.current ∈ running

/-- The task is met on the way from `run_queue` along the `next` pointers. -/
def InQueue (s : Sched) (task : ℕ) : Prop :=
  ∃ n, (fun pointer => pointer.bind s.next)^[n] s.runQueue = some task

/-- The current task does not exit while it is its own successor on the run queue. -/
def NotLast (s : Sched) (event : Event) : Prop :=
  event = .threadExit → s.next s.current ≠ some s.current

/-- A new task gets memory that is no task. -/
def Fresh (s : Sched) : Event → Prop
  | .threadCreate task | .createUserProcess task | .sysFork task => s.allocated task = false
  | _ => True

/-! ## The queue operations -/

theorem deref_some {s : Sched} {task : ℕ} (allocated : s.allocated task = true) :
    s.deref (some task) = some task := if_pos allocated

private theorem enqueue_spec {s : Sched} {ring : List ℕ} {task : ℕ} (head : s.runQueue = ring.head?)
    (links : Ring s.next s.prev ring) (nodup : ring.Nodup)
    (allocated : ∀ x ∈ ring, s.allocated x = true) (new : task ∉ ring)
    (allocatedTask : s.allocated task = true) :
    ∃ next prev, s.enqueue task = some { s with
        next := next, prev := prev, runQueue := (ring ++ [task]).head? } ∧
      Ring next prev (ring ++ [task]) ∧ ∀ x ∉ ring, x ≠ task → next x = s.next x := by
  cases ring with
  | nil =>
    refine ⟨Function.update s.next task (some task),
      Function.update s.prev task (some task), ?_, ?_, ?_⟩
    · simp [enqueue, head, setNext, setPrev, deref, allocatedTask]
    · exact links_pair.mpr ⟨Function.update_self _ _ _, Function.update_self _ _ _⟩
    · exact fun x _ other => Function.update_of_ne other _ _
  | cons first rest =>
    obtain ⟨before, last, shape⟩ : ∃ before last, first :: rest = before ++ [last] :=
      ⟨_, _, (List.dropLast_append_getLast (List.cons_ne_nil first rest)).symm⟩
    have lastMember : last ∈ first :: rest :=
      shape ▸ List.mem_append_right before (List.mem_singleton_self last)
    have notLast : task ≠ last := fun same => new (same ▸ lastMember)
    have notFirst : task ≠ first := fun same => new (same ▸ List.mem_cons_self)
    obtain ⟨nextLast, prevFirst⟩ := links.ends shape
    refine ⟨Function.update (Function.update s.next last (some task)) task (some first),
      Function.update (Function.update s.prev task (some last)) first (some task), ?_, ?_, ?_⟩
    · simp [enqueue, head, setNext, setPrev, getPrev, deref, allocatedTask,
        allocated last lastMember, allocated first List.mem_cons_self, prevFirst]
    · apply links.insert shape nodup new
      · rw [Function.update_of_ne notLast.symm, Function.update_self]
      · exact Function.update_self _ _ _
      · rw [Function.update_of_ne notFirst, Function.update_self]
      · exact Function.update_self _ _ _
      · intro x notX other
        rw [Function.update_of_ne other, Function.update_of_ne notX]
      · intro x notX other
        rw [Function.update_of_ne notX, Function.update_of_ne other]
    · intro x outside other
      have notX : x ≠ last := fun same => outside (same ▸ lastMember)
      rw [Function.update_of_ne other, Function.update_of_ne notX]

/-- Any member can leave a ring of at least two. -/
theorem dequeue_spec {s : Sched} {before after : List ℕ} {task : ℕ}
    (head : s.runQueue = (before ++ task :: after).head?)
    (links : Ring s.next s.prev (before ++ task :: after)) (nodup : (before ++ task :: after).Nodup)
    (allocated : ∀ x ∈ before ++ task :: after, s.allocated x = true)
    (others : after ++ before ≠ []) :
    ∃ next prev, s.dequeue task = some { s with
        next := next, prev := prev, runQueue := (before ++ after).head? } ∧
      Ring next prev (before ++ after) ∧ ∀ x ∉ before ++ task :: after, next x = s.next x := by
  -- seen from the task that leaves, it is the first
  have rotated : Ring s.next s.prev (task :: (after ++ before)) := links.rotate_append
  have perm : (before ++ task :: after).Perm (task :: (after ++ before)) := List.perm_append_comm
  have nodupRotated := perm.nodup nodup
  obtain ⟨first, rest, shapeFirst⟩ := List.exists_cons_of_ne_nil others
  obtain ⟨init, last, shape⟩ : ∃ init last, first :: rest = init ++ [last] :=
    ⟨_, _, (List.dropLast_append_getLast (List.cons_ne_nil first rest)).symm⟩
  rw [shapeFirst] at rotated nodupRotated perm
  have lastMember : last ∈ first :: rest :=
    shape ▸ List.mem_append_right init (List.mem_singleton_self last)
  have notFirst : task ≠ first := fun same =>
    (List.nodup_cons.mp nodupRotated).1 (same ▸ List.mem_cons_self)
  have notLast : task ≠ last := fun same => (List.nodup_cons.mp nodupRotated).1 (same ▸ lastMember)
  have member : ∀ {x}, x ∈ task :: first :: rest → x ∈ before ++ task :: after :=
    fun inside => perm.mem_iff.mpr inside
  have nextTask : s.next task = some first := by
    obtain ⟨second, second_eq, next, -⟩ := rotated.next_first
    rw [next, ← second_eq]
    rfl
  have prevTask : s.prev task = some last := by
    have shapeTask : task :: first :: rest = (task :: init) ++ [last] := by rw [shape]; rfl
    exact (rotated.ends shapeTask).2
  have newHead : (if s.runQueue = some task then some first else s.runQueue) =
      (before ++ after).head? := by
    rw [head]
    cases before with
    | nil =>
      rw [List.append_nil] at shapeFirst
      simp [shapeFirst]
    | cons other before =>
      have different : other ≠ task := by
        rintro rfl
        exact (List.nodup_cons.mp nodup).1 (List.mem_append_right before List.mem_cons_self)
      simp [different]
  refine ⟨Function.update (Function.update s.next last (some first)) task none,
    Function.update (Function.update s.prev first (some last)) task none, ?_, ?_, ?_⟩
  · have allocatedTask := allocated task (member List.mem_cons_self)
    have allocatedFirst := allocated first (member (List.mem_cons_of_mem task List.mem_cons_self))
    have allocatedLast := allocated last (member (List.mem_cons_of_mem task lastMember))
    rw [← newHead]
    simp [dequeue, getNext, getPrev, setNext, setPrev, deref, allocatedTask, allocatedFirst,
      allocatedLast, nextTask, prevTask, Function.update_of_ne notFirst,
      Function.update_of_ne notLast]
  · have unlinked : Ring (Function.update (Function.update s.next last (some first)) task none)
        (Function.update (Function.update s.prev first (some last)) task none) (first :: rest) := by
      apply rotated.remove shape nodupRotated
      · rw [Function.update_of_ne notLast.symm, Function.update_self]
      · rw [Function.update_of_ne notFirst.symm, Function.update_self]
      · intro x notX other
        rw [Function.update_of_ne other, Function.update_of_ne notX]
      · intro x notX other
        rw [Function.update_of_ne other, Function.update_of_ne notX]
    rw [← shapeFirst] at unlinked
    exact unlinked.rotate_append
  · intro x outside
    have notTask : x ≠ task := fun same => outside (same ▸ member List.mem_cons_self)
    have notX : x ≠ last :=
      fun same => outside (same ▸ member (List.mem_cons_of_mem task lastMember))
    rw [Function.update_of_ne notTask, Function.update_of_ne notX]

/-- `schedule` turns the ring at most and picks a member. -/
private theorem schedule_spec {s : Sched} {first : ℕ} {rest : List ℕ}
    (head : s.runQueue = some first) (links : Ring s.next s.prev (first :: rest))
    (allocated : ∀ x ∈ first :: rest, s.allocated x = true) :
    ∃ turned chosen, s.schedule = some { s with runQueue := turned.head?, current := chosen } ∧
      turned.Perm (first :: rest) ∧ Ring s.next s.prev turned ∧ chosen ∈ first :: rest := by
  have allocatedFirst := allocated first List.mem_cons_self
  rcases eq_or_ne s.current first with isFirst | notFirst
  · obtain ⟨second, turnedHead, following, -⟩ := links.next_first
    have perm : (rest ++ [first]).Perm (first :: rest) := List.perm_append_comm
    have member : second ∈ first :: rest := perm.mem_iff.mp (List.mem_of_mem_head? turnedHead)
    have allocatedSecond := allocated second member
    refine ⟨rest ++ [first], second, ?_, perm, links.rotate, member⟩
    rw [turnedHead]
    rcases eq_or_ne second first with alone | other
    · simp [schedule, head, isFirst, getNext, deref, allocatedFirst, following, alone]
    · simp [schedule, head, isFirst, getNext, deref, allocatedFirst,
        following, other, allocatedSecond]
  · refine ⟨first :: rest, first, ?_, List.Perm.refl _, links, List.mem_cons_self⟩
    simp [schedule, head, notFirst, notFirst.symm, deref, allocatedFirst]

/-! ## What the queue operations leave alone -/

/-- The same tasks with the same numbers and states, on other queues perhaps. -/
structure SameTasks (s t : Sched) : Prop where
  allocated : t.allocated = s.allocated
  pid : t.pid = s.pid
  state : t.state = s.state

section Unchanged

variable {s t : Sched} {pointer value : Option ℕ} {task : ℕ}

theorem SameTasks.trans {u : Sched} (first : SameTasks s t) (second : SameTasks t u) :
    SameTasks s u :=
  ⟨second.allocated.trans first.allocated, second.pid.trans first.pid,
    second.state.trans first.state⟩

theorem sameTasks_setNext (result : s.setNext pointer value = some t) : SameTasks s t := by
  obtain ⟨_, -, rfl⟩ := Option.map_eq_some_iff.mp result
  exact ⟨rfl, rfl, rfl⟩

theorem sameTasks_setPrev (result : s.setPrev pointer value = some t) : SameTasks s t := by
  obtain ⟨_, -, rfl⟩ := Option.map_eq_some_iff.mp result
  exact ⟨rfl, rfl, rfl⟩

theorem sameTasks_enqueue (result : s.enqueue task = some t) : SameTasks s t := by
  rw [enqueue] at result
  split at result
  · obtain ⟨first, next, result⟩ := Option.bind_eq_some_iff.mp result
    have start : SameTasks { s with runQueue := some task } first := sameTasks_setNext next
    have queued : SameTasks s { s with runQueue := some task } := ⟨rfl, rfl, rfl⟩
    exact (queued.trans start).trans (sameTasks_setPrev result)
  · obtain ⟨_, -, result⟩ := Option.bind_eq_some_iff.mp result
    obtain ⟨first, next, result⟩ := Option.bind_eq_some_iff.mp result
    obtain ⟨second, next', result⟩ := Option.bind_eq_some_iff.mp result
    obtain ⟨_, -, result⟩ := Option.bind_eq_some_iff.mp result
    obtain ⟨third, prev, result⟩ := Option.bind_eq_some_iff.mp result
    apply (sameTasks_setNext next).trans
    apply (sameTasks_setNext next').trans
    exact (sameTasks_setPrev prev).trans (sameTasks_setPrev result)

theorem sameTasks_dequeue (result : s.dequeue task = some t) : SameTasks s t := by
  obtain ⟨_, -, result⟩ := Option.bind_eq_some_iff.mp result
  obtain ⟨_, -, result⟩ := Option.bind_eq_some_iff.mp result
  obtain ⟨first, prev, result⟩ := Option.bind_eq_some_iff.mp result
  obtain ⟨_, -, result⟩ := Option.bind_eq_some_iff.mp result
  obtain ⟨_, -, result⟩ := Option.bind_eq_some_iff.mp result
  obtain ⟨second, next, result⟩ := Option.bind_eq_some_iff.mp result
  obtain ⟨following, -, result⟩ := Option.bind_eq_some_iff.mp result
  obtain ⟨third, next', result⟩ := Option.bind_eq_some_iff.mp result
  apply (sameTasks_setPrev prev).trans
  apply (sameTasks_setNext next).trans
  have queued : SameTasks second { second with runQueue := if second.runQueue = some task then
      following else second.runQueue } :=
    ⟨rfl, rfl, rfl⟩
  exact (queued.trans (sameTasks_setNext next')).trans (sameTasks_setPrev result)

theorem sameTasks_pushZombie (result : s.pushZombie task = some t) : SameTasks s t := by
  obtain ⟨first, next, result⟩ := Option.bind_eq_some_iff.mp result
  obtain rfl := Option.some.inj result
  exact ⟨(sameTasks_setNext next).allocated, (sameTasks_setNext next).pid,
    (sameTasks_setNext next).state⟩

theorem sameTasks_schedule (result : s.schedule = some t) : SameTasks s t := by
  -- the pointer of the next task is followed unless it is the current one
  have dispatch : ∀ {runQueue : Option ℕ},
      (if runQueue = some s.current then some { s with runQueue := runQueue }
      else do
        let chosen ← s.deref runQueue
        some { s with runQueue := runQueue, current := chosen }) = some t → SameTasks s t := by
    intro runQueue result
    split at result
    · obtain rfl := Option.some.inj result
      exact ⟨rfl, rfl, rfl⟩
    · obtain ⟨_, -, result⟩ := Option.bind_eq_some_iff.mp result
      obtain rfl := Option.some.inj result
      exact ⟨rfl, rfl, rfl⟩
  rw [schedule] at result
  split at result
  · obtain rfl := Option.some.inj result
    exact ⟨rfl, rfl, rfl⟩
  · rename_i head _
    by_cases here : s.current = head
    · obtain ⟨_, -, result⟩ := Option.bind_eq_some_iff.mp ((if_pos here).symm.trans result)
      exact dispatch result
    · exact dispatch ((if_neg here).symm.trans result)

/-- Its number stays and it runs or became a zombie. -/
def Survives (s t : Sched) (task : ℕ) : Prop :=
  t.allocated task = true ∧ t.pid task = s.pid task ∧
    (t.state task = .running ∨ t.state task = .zombie)

/-- A step that changes the state of one task at most, which becomes a zombie. -/
theorem survives_of_retired {u : Sched} {retired : ℕ}
    (retires : s.setState (some retired) .zombie = some t) (same : SameTasks t u)
    (allocated : s.allocated task = true) (state : s.state task = .running) :
    Survives s u task := by
  obtain ⟨_, here, rfl⟩ := Option.map_eq_some_iff.mp retires
  refine ⟨?_, congrFun same.pid task, ?_⟩
  · rw [same.allocated]
    exact allocated
  · rw [same.state]
    change Function.update s.state _ TaskState.zombie task = _ ∨
      Function.update s.state _ TaskState.zombie task = _
    rw [Function.update_apply]
    split
    · exact .inr rfl
    · exact .inl state

theorem SameTasks.survives (same : SameTasks s t) (allocated : s.allocated task = true)
    (state : s.state task = .running) :
    Survives s t task :=
  ⟨same.allocated ▸ allocated, congrFun same.pid task, .inl (same.state ▸ state)⟩

theorem survives_spawn {new : ℕ} {handlers : Fin 32 → Word} (result : s.spawn new handlers = some t)
    (allocated : s.allocated task = true) (state : s.state task = .running) :
    Survives s t task := by
  obtain ⟨fresh, result⟩ := Option.ite_none_left_eq_some.mp result
  have other : task ≠ new := by
    rintro rfl
    exact fresh allocated
  have same := sameTasks_enqueue result
  refine ⟨?_, ?_, .inl ?_⟩
  · rw [same.allocated]
    exact (Function.update_of_ne other _ _).trans allocated
  · rw [same.pid]
    exact Function.update_of_ne other _ _
  · rw [same.state]
    exact (Function.update_of_ne other _ _).trans state

theorem survives_sysStop {pid : BitVec 32} {fuel : ℕ} {result : ℤ × Sched}
    (stopped : s.sysStop pid fuel = some result) (allocated : s.allocated task = true)
    (state : s.state task = .running) : Survives s result.2 task := by
  have unchanged : SameTasks s s := ⟨rfl, rfl, rfl⟩
  obtain ⟨outcome, -, stopped⟩ := Option.bind_eq_some_iff.mp stopped
  split at stopped
  · obtain rfl := Option.some.inj stopped
    exact unchanged.survives allocated state
  · split at stopped
    · obtain rfl := Option.some.inj stopped
      exact unchanged.survives allocated state
    · obtain ⟨first, left, stopped⟩ := Option.bind_eq_some_iff.mp stopped
      obtain ⟨second, retires, stopped⟩ := Option.bind_eq_some_iff.mp stopped
      obtain ⟨third, pushed, stopped⟩ := Option.bind_eq_some_iff.mp stopped
      obtain rfl := Option.some.inj stopped
      have same := sameTasks_dequeue left
      obtain ⟨stays, number, alive⟩ := survives_of_retired retires (sameTasks_pushZombie pushed)
        (same.allocated ▸ allocated) (same.state ▸ state)
      exact ⟨stays, number.trans (congrFun same.pid task), alive⟩

private theorem survives_threadExit (result : s.threadExit = some t)
    (allocated : s.allocated task = true) (state : s.state task = .running) :
    Survives s t task := by
  obtain ⟨first, retires, result⟩ := Option.bind_eq_some_iff.mp result
  obtain ⟨second, left, result⟩ := Option.bind_eq_some_iff.mp result
  obtain ⟨third, pushed, result⟩ := Option.bind_eq_some_iff.mp result
  apply survives_of_retired retires _ allocated state
  apply (sameTasks_dequeue left).trans
  exact (sameTasks_pushZombie pushed).trans (sameTasks_schedule result)

end Unchanged

/-! ## What each transition keeps -/

section Transitions

variable {s : Sched} {running zombies before after : List ℕ} {task : ℕ}

theorem Queues.allocated (queues : Queues s running zombies) :
    ∀ x ∈ running, s.allocated x = true :=
  fun x member => ((queues.runningMembers x).mp member).1

theorem Queues.disjoint (queues : Queues s running zombies) : ∀ x ∈ zombies, x ∉ running := by
  intro x inZombies inRunning
  have zombie := ((queues.zombieMembers x).mp inZombies).2
  rw [((queues.runningMembers x).mp inRunning).2] at zombie
  exact absurd zombie (by decide)

theorem InQueue.member (queues : Queues s running zombies)
    (listed : InQueue s task) : task ∈ running := by
  obtain ⟨n, reached⟩ := listed
  induction n generalizing task with
  | zero =>
    have head : s.runQueue = some task := reached
    exact List.mem_of_mem_head? (queues.head.symm.trans head)
  | succ n ih =>
    rw [Function.iterate_succ_apply'] at reached
    obtain ⟨previous, reachedPrevious, next⟩ := Option.bind_eq_some_iff.mp reached
    obtain ⟨following, member, links⟩ := queues.ring.next_mem (ih reachedPrevious)
    obtain rfl := Option.some.inj (links.symm.trans next)
    exact member

theorem InQueue.of_member (queues : Queues s running zombies) (member : task ∈ running) :
    InQueue s task := by
  obtain ⟨first, rest, rfl⟩ := List.exists_cons_of_ne_nil (List.ne_nil_of_mem member)
  obtain ⟨n, reached⟩ := Links.reaches queues.ring (List.mem_append_left [first] member)
  exact ⟨n, queues.head ▸ reached⟩

theorem Queues.spawn (queues : Queues s running zombies) (fresh : s.allocated task = false)
    (handlers : Fin 32 → Word) :
    ∃ t, s.spawn task handlers = some t ∧ Queues t (running ++ [task]) zombies ∧
      t.current = s.current := by
  have new : task ∉ running := fun member => by simp [queues.allocated task member] at fresh
  have newZombie : task ∉ zombies := fun member => by
    simp [((queues.zombieMembers task).mp member).1] at fresh
  generalize created : { s with
    allocated := Function.update s.allocated task true
    pid := Function.update s.pid task s.nrThreads
    state := Function.update s.state task .running
    sigHandlers := Function.update s.sigHandlers task handlers
    pendingSignals := Function.update s.pendingSignals task 0#32
    next := Function.update s.next task none
    prev := Function.update s.prev task none
    nrThreads := s.nrThreads + 1#32 } = c
  have apart : ∀ {x}, x ∈ running → x ≠ task := fun member same => new (same ▸ member)
  have ring : Ring c.next c.prev running := by
    rw [← created]
    cases running with
    | nil => trivial
    | cons first rest =>
      apply queues.ring.congr
      · exact fun x member => Function.update_of_ne (apart member) _ _
      · intro x member
        apply Function.update_of_ne
        rw [List.cons_append, List.tail_cons, List.mem_append, List.mem_singleton] at member
        rcases member with inRest | rfl
        · exact apart (List.mem_cons_of_mem first inRest)
        · exact apart List.mem_cons_self
  have allocatedC : ∀ x, c.allocated x = true ↔ x = task ∨ s.allocated x = true := by
    intro x
    rw [← created]
    rcases eq_or_ne x task with rfl | other
    · simp
    · simp [other]
  obtain ⟨next, prev, result, links, kept⟩ :=
    enqueue_spec (s := c) (by rw [← created]; exact queues.head) ring
    queues.runningNodup (fun x member => (allocatedC x).mpr (.inr (queues.allocated x member))) new
    ((allocatedC task).mpr (.inl rfl))
  refine ⟨{ c with next := next, prev := prev, runQueue := (running ++ [task]).head? }, ?_,
    ⟨rfl, links, ?_, fun x => ?_, ?_, queues.zombiesNodup, fun x => ?_⟩, ?_⟩
  · rw [Sched.spawn, if_neg (by simp [fresh]), created, result]
  · exact (List.perm_append_singleton task running).nodup_iff.mpr
      (List.nodup_cons.mpr ⟨new, queues.runningNodup⟩)
  · rw [List.mem_append, List.mem_singleton, queues.runningMembers x, ← created]
    rcases eq_or_ne x task with rfl | other
    · simp
    · simp [other]
  · rw [← created] at kept ⊢
    apply queues.chain.congr
    intro x member
    have other : x ≠ task := fun same => newZombie (same ▸ member)
    exact (kept x (queues.disjoint x member) other).trans (Function.update_of_ne other _ _)
  · rw [queues.zombieMembers x, ← created]
    rcases eq_or_ne x task with rfl | other
    · simp [fresh]
    · simp [other]
  · rw [← created]

/-- A task that left the ring and became the first zombie. -/
theorem Queues.retire (queues : Queues s (before ++ task :: after) zombies)
    {next prev : ℕ → Option ℕ} (links : Ring next prev (before ++ after))
    (kept : ∀ x ∉ before ++ task :: after, next x = s.next x) :
    Queues { s with
      state := Function.update s.state task .zombie
      next := Function.update next task s.zombieQueue
      prev := prev
      runQueue := (before ++ after).head?
      zombieQueue := some task } (before ++ after) (task :: zombies) := by
  have perm : (before ++ task :: after).Perm (task :: (before ++ after)) := List.perm_middle
  have nodup := List.nodup_cons.mp (perm.nodup queues.runningNodup)
  have member : task ∈ before ++ task :: after := List.mem_append_right before List.mem_cons_self
  have notZombie : task ∉ zombies := fun inZombies => queues.disjoint task inZombies member
  have allocated := queues.allocated task member
  have apart : ∀ {x}, x ∈ before ++ after → x ≠ task := fun inside same => nodup.1 (same ▸ inside)
  refine ⟨rfl, ?_, nodup.2, fun x => ?_, ⟨rfl, ?_⟩,
    List.nodup_cons.mpr ⟨notZombie, queues.zombiesNodup⟩, fun x => ?_⟩
  · cases shape : before ++ after with
    | nil => trivial
    | cons first rest =>
      rw [shape] at links apart
      exact Links.congr links (fun x inside => Function.update_of_ne (apart inside) _ _) fun _ _ =>
        rfl
  · have old := queues.runningMembers x
    rw [perm.mem_iff, List.mem_cons] at old
    rcases eq_or_ne x task with rfl | other
    · simp [nodup.1]
    · simp only [other, false_or] at old
      rw [old]
      simp [other]
  · change Chain _ (Function.update next task s.zombieQueue task) zombies
    rw [Function.update_self]
    apply queues.chain.congr
    intro x inside
    have other : x ≠ task := fun same => notZombie (same ▸ inside)
    exact (Function.update_of_ne other _ _).trans (kept x (queues.disjoint x inside))
  · rw [List.mem_cons, queues.zombieMembers x]
    rcases eq_or_ne x task with rfl | other
    · simp [allocated]
    · simp [other]

theorem Queues.schedule (queues : Queues s running zombies) (nonempty : running ≠ []) :
    ∃ t, s.schedule = some t ∧ Partitioned t := by
  obtain ⟨first, rest, rfl⟩ := List.exists_cons_of_ne_nil nonempty
  obtain ⟨turned, chosen, result, perm, links, member⟩ :=
    schedule_spec queues.head queues.ring queues.allocated
  refine ⟨_, result, turned, zombies, ⟨rfl, links, perm.nodup_iff.mpr queues.runningNodup,
    fun x => ?_, queues.chain, queues.zombiesNodup, queues.zombieMembers⟩, perm.mem_iff.mpr member⟩
  rw [perm.mem_iff]
  exact queues.runningMembers x

/-- The current task of a ring of at least two becomes the first zombie. -/
theorem Queues.leaveQueue (queues : Queues s (before ++ s.current :: after) zombies)
    (others : after ++ before ≠ []) :
    ∃ t, s.leaveQueue = some t ∧ Queues t (before ++ after) (s.current :: zombies) ∧
      t.current = s.current := by
  have allocated := queues.allocated s.current (List.mem_append_right before List.mem_cons_self)
  obtain ⟨next, prev, result, links, kept⟩ := dequeue_spec (s := { s with
    state := Function.update s.state s.current .zombie })
      queues.head queues.ring queues.runningNodup
    queues.allocated others
  refine ⟨_, ?_, queues.retire links kept, rfl⟩
  simp [Sched.leaveQueue, setState, deref, allocated, result, pushZombie, setNext]

private theorem threadExit_eq (s : Sched) : s.threadExit = s.leaveQueue.bind Sched.schedule := by
  simp [Sched.threadExit, Sched.leaveQueue, Option.bind_assoc]

theorem Queues.threadExit (queues : Queues s running zombies) (current : s.current ∈ running)
    (notLast : s.next s.current ≠ some s.current) : ∃ t, s.threadExit = some t ∧ Partitioned t := by
  obtain ⟨before, after, rfl⟩ := List.append_of_mem current
  have others : after ++ before ≠ [] := by
    intro none
    obtain ⟨rfl, rfl⟩ := List.append_eq_nil_iff.mp none
    exact notLast (links_pair.mp queues.ring).1
  obtain ⟨left, result, queues, -⟩ := queues.leaveQueue others
  obtain ⟨t, scheduled, partitioned⟩ := queues.schedule (by
    intro none
    obtain ⟨rfl, rfl⟩ := List.append_eq_nil_iff.mp none
    exact others rfl)
  refine ⟨t, ?_, partitioned⟩
  rw [threadExit_eq, result]
  exact scheduled

/-- The search returns members only, and with enough fuel it returns. -/
private theorem findPid_spec (pid : BitVec 32) {first curr : ℕ} {rest : List ℕ}
    (head : s.runQueue = some first) (links : Links s.next s.prev (curr :: rest ++ [first]))
    (allocated : ∀ x ∈ curr :: rest, s.allocated x = true) :
    (∀ fuel found, s.findPid pid fuel curr = some (some found) → found ∈ curr :: rest) ∧
      ∃ outcome, s.findPid pid (rest.length + 1) curr = some outcome := by
  have allocatedCurr := allocated curr List.mem_cons_self
  induction rest generalizing curr with
  | nil =>
    have following : s.next curr = some first := (links_pair.mp links).1
    constructor
    · intro fuel found search
      cases fuel with
      | zero => simp [findPid] at search
      | succ fuel =>
        rw [findPid] at search
        split at search
        · simp_all
        · simp [getNext, deref, allocatedCurr, following, head] at search
    · rw [List.length_nil, findPid]
      split
      · exact ⟨_, rfl⟩
      · exact ⟨none, by simp [getNext, deref, allocatedCurr, following, head]⟩
  | cons second rest ih =>
    rw [List.cons_append, List.cons_append, Links, List.isChain_cons_cons] at links
    have following : s.next curr = some second := links.1.1
    have allocatedSecond := allocated second (List.mem_cons_of_mem curr List.mem_cons_self)
    obtain ⟨sound, outcome, returns⟩ :=
      ih links.2 (fun x member => allocated x (List.mem_cons_of_mem curr member))
      allocatedSecond
    constructor
    · intro fuel found search
      cases fuel with
      | zero => simp [findPid] at search
      | succ fuel =>
        rw [findPid] at search
        split at search
        · simp_all
        · simp only [getNext, deref_some allocatedCurr, Option.map_some, following,
            Option.bind_eq_bind, Option.bind_some, deref_some allocatedSecond] at search
          split at search
          · simp at search
          · exact List.mem_cons_of_mem curr (sound fuel found search)
    · rw [List.length_cons, findPid]
      split
      · exact ⟨_, rfl⟩
      · simp only [getNext, deref_some allocatedCurr, Option.map_some, following,
          Option.bind_eq_bind, Option.bind_some, deref_some allocatedSecond]
        split
        · exact ⟨none, rfl⟩
        · exact ⟨outcome, returns⟩

/-- The search finds the number it searches for. -/
private theorem findPid_pid {pid : BitVec 32} {fuel curr found : ℕ}
    (search : s.findPid pid fuel curr = some (some found)) :
    s.pid found = pid := by
  induction fuel generalizing curr with
  | zero => cases search
  | succ fuel ih =>
    rw [findPid] at search
    split at search
    case isTrue same =>
      obtain rfl := Option.some.inj (Option.some.inj search)
      exact same
    case isFalse =>
      obtain ⟨following, -, search⟩ := Option.bind_eq_some_iff.mp search
      split at search
      · cases search
      · obtain ⟨next, -, search⟩ := Option.bind_eq_some_iff.mp search
        exact ih search

/-- The search finds nobody only when no task it comes past has the number. -/
private theorem findPid_nobody {pid : BitVec 32} {fuel first curr : ℕ} {rest : List ℕ}
    (head : s.runQueue = some first) (links : Links s.next s.prev (curr :: rest ++ [first]))
    (allocated : ∀ x ∈ curr :: rest, s.allocated x = true) (apart : first ∉ rest)
    (search : s.findPid pid fuel curr = some none) : ∀ x ∈ curr :: rest, s.pid x ≠ pid := by
  have allocatedCurr := allocated curr List.mem_cons_self
  induction rest generalizing curr fuel with
  | nil =>
    cases fuel with
    | zero => cases search
    | succ fuel =>
      rw [findPid] at search
      split at search
      · cases search
      · rename_i other
        intro x member
        rw [List.mem_singleton.mp member]
        exact other
  | cons second rest ih =>
    rw [List.cons_append, List.cons_append, Links, List.isChain_cons_cons] at links
    have following : s.next curr = some second := links.1.1
    have allocatedSecond := allocated second (List.mem_cons_of_mem curr List.mem_cons_self)
    have notFirst : second ≠ first := fun same => apart (same ▸ List.mem_cons_self)
    have inner : ∀ x ∈ second :: rest, s.allocated x = true :=
      fun x member => allocated x (List.mem_cons_of_mem curr member)
    cases fuel with
    | zero => cases search
    | succ fuel =>
      rw [findPid] at search
      split at search
      · cases search
      · rename_i other
        simp only [getNext, deref_some allocatedCurr, Option.map_some, following,
          Option.bind_eq_bind, Option.bind_some, deref_some allocatedSecond, head,
          Option.some.injEq, if_neg notFirst] at search
        have later := ih links.2 inner (fun inside => apart (List.mem_cons_of_mem second inside))
          search allocatedSecond
        intro x member
        rcases List.mem_cons.mp member with rfl | inside
        · exact other
        · exact later x inside

theorem Queues.findTask (queues : Queues s running zombies) (pid : BitVec 32) :
    (∀ fuel found, s.findTask pid fuel = some (some found) → found ∈ running) ∧
      ∃ fuel outcome, s.findTask pid fuel = some outcome := by
  cases running with
  | nil =>
    have empty : s.runQueue = none := queues.head
    exact ⟨fun fuel found search => by simp [Sched.findTask, empty] at search,
      0, none, by simp [Sched.findTask, empty]⟩
  | cons first rest =>
    have head : s.runQueue = some first := queues.head
    have allocated := queues.allocated first List.mem_cons_self
    have search : ∀ fuel, s.findTask pid fuel = s.findPid pid fuel first := by
      intro fuel
      simp [Sched.findTask, head, deref, allocated]
    obtain ⟨sound, outcome, returns⟩ := findPid_spec pid head queues.ring queues.allocated
    refine ⟨fun fuel found result => ?_, rest.length + 1, outcome, ?_⟩
    · rw [search] at result
      exact sound fuel found result
    · rw [search]
      exact returns

theorem Queues.findTask_pid (queues : Queues s running zombies) {pid : BitVec 32} {fuel : ℕ}
    {outcome : Option ℕ} (search : s.findTask pid fuel = some outcome) :
    (∃ found ∈ running, s.pid found = pid ∧ outcome = some found) ∨
    (∀ x ∈ running, s.pid x ≠ pid) ∧ outcome = none := by
  cases running with
  | nil =>
    have empty : s.runQueue = none := queues.head
    simp only [Sched.findTask, empty, Option.some.injEq] at search
    exact .inr ⟨fun x member => absurd member List.not_mem_nil, search.symm⟩
  | cons first rest =>
    have head : s.runQueue = some first := queues.head
    have allocated := queues.allocated first List.mem_cons_self
    have apart := (List.nodup_cons.mp queues.runningNodup).1
    cases outcome with
    | some found =>
      have member := (queues.findTask pid).1 fuel found search
      simp only [Sched.findTask, head, deref_some allocated, Option.bind_eq_bind,
        Option.bind_some] at search
      exact .inl ⟨found, member, findPid_pid search, rfl⟩
    | none =>
      simp only [Sched.findTask, head, deref_some allocated, Option.bind_eq_bind,
        Option.bind_some] at search
      exact .inr ⟨findPid_nobody head queues.ring queues.allocated apart search, rfl⟩

/-- Stopping another member of the ring. -/
theorem Queues.stop {pid : BitVec 32} {fuel curr : ℕ}
    (queues : Queues s (before ++ curr :: after) zombies)
    (search : s.findTask pid fuel = some (some curr)) (other : curr ≠ s.current)
    (others : after ++ before ≠ []) :
    ∃ t, s.sysStop pid fuel = some (0, t) ∧ Queues t (before ++ after) (curr :: zombies) ∧
      t.current = s.current := by
  have allocated := queues.allocated curr (List.mem_append_right before List.mem_cons_self)
  obtain ⟨next, prev, result, links, kept⟩ :=
    dequeue_spec queues.head queues.ring queues.runningNodup
    queues.allocated others
  refine ⟨_, ?_, queues.retire links kept, rfl⟩
  simp [Sched.sysStop, search, other, result, setState, deref, allocated, pushZombie, setNext]

theorem sysStop_unchanged {pid : BitVec 32} {fuel : ℕ} {outcome : Option ℕ}
    (search : s.findTask pid fuel = some outcome)
    (nobody : ∀ curr, outcome = some curr → curr = s.current) :
    s.sysStop pid fuel = some (-1, s) := by
  cases outcome with
  | none => simp [Sched.sysStop, search]
  | some curr => simp [Sched.sysStop, search, nobody curr rfl]

theorem Queues.sysStop (queues : Queues s running zombies) (current : s.current ∈ running)
    (pid : BitVec 32) {fuel : ℕ} {outcome : Option ℕ}
    (search : s.findTask pid fuel = some outcome) :
    ∃ ret t, s.sysStop pid fuel = some (ret, t) ∧ Partitioned t := by
  have unchanged : Partitioned s := ⟨running, zombies, queues, current⟩
  by_cases nobody : ∀ curr, outcome = some curr → curr = s.current
  · exact ⟨-1, s, sysStop_unchanged search nobody, unchanged⟩
  · simp only [not_forall] at nobody
    obtain ⟨curr, rfl, other⟩ := nobody
    have member := (queues.findTask pid).1 fuel curr search
    obtain ⟨before, after, rfl⟩ := List.append_of_mem member
    have currentStays : s.current ∈ before ++ after := by
      rw [List.perm_middle.mem_iff, List.mem_cons] at current
      exact current.resolve_left (Ne.symm other)
    have others : after ++ before ≠ [] := by
      intro none
      obtain ⟨rfl, rfl⟩ := List.append_eq_nil_iff.mp none
      simp at currentStays
    obtain ⟨t, result, stopped, same⟩ := queues.stop search other others
    exact ⟨0, t, result, before ++ after, curr :: zombies, stopped, same ▸ currentStays⟩

theorem Partitioned.sysStop (partitioned : Partitioned s) (pid : BitVec 32) :
    (∀ fuel ret t, s.sysStop pid fuel = some (ret, t) → Partitioned t) ∧
      ∃ fuel ret t, s.sysStop pid fuel = some (ret, t) := by
  obtain ⟨running, zombies, queues, current⟩ := partitioned
  constructor
  · intro fuel ret t result
    cases search : s.findTask pid fuel with
    | none => simp [Sched.sysStop, search] at result
    | some outcome =>
      obtain ⟨ret', t', result', stopped⟩ := queues.sysStop current pid search
      rw [result] at result'
      obtain ⟨-, rfl⟩ := Prod.mk.inj (Option.some.inj result')
      exact stopped
  · obtain ⟨fuel, outcome, search⟩ := (queues.findTask pid).2
    obtain ⟨ret, t, result, -⟩ := queues.sysStop current pid search
    exact ⟨fuel, ret, t, result⟩

theorem Partitioned.sysKill (partitioned : Partitioned s) (pid signum : BitVec 32) :
    (∀ fuel ret t, s.sysKill pid signum fuel = some (ret, t) → Partitioned t) ∧
      ∃ fuel ret t, s.sysKill pid signum fuel = some (ret, t) := by
  obtain ⟨running, zombies, queues, current⟩ := partitioned
  have step : ∀ fuel outcome, s.findTask pid fuel = some outcome →
      ∃ ret t, s.sysKill pid signum fuel = some (ret, t) ∧ Partitioned t := by
    intro fuel outcome search
    rw [Sched.sysKill]
    split
    · simp only [search, Option.bind_eq_bind, Option.bind_some]
      cases outcome with
      | none => exact ⟨-1, s, rfl, running, zombies, queues, current⟩
      | some target =>
        simp only
        split
        · -- only the pending set of the target changes
          exact ⟨0, _, rfl, running, zombies, ⟨queues.head, queues.ring, queues.runningNodup,
            queues.runningMembers, queues.chain, queues.zombiesNodup, queues.zombieMembers⟩,
            current⟩
        · obtain ⟨ret, t, stopped, partitioned⟩ := queues.sysStop current pid search
          exact ⟨-1, t, by rw [stopped]; rfl, partitioned⟩
    · exact ⟨-1, s, rfl, running, zombies, queues, current⟩
  constructor
  · intro fuel ret t result
    cases search : s.findTask pid fuel with
    | none =>
      rw [Sched.sysKill] at result
      split at result
      · simp [search] at result
      · obtain ⟨-, rfl⟩ := Prod.mk.inj (Option.some.inj result)
        exact ⟨running, zombies, queues, current⟩
    | some outcome =>
      obtain ⟨ret', t', result', partitioned⟩ := step fuel outcome search
      rw [result] at result'
      obtain ⟨-, rfl⟩ := Prod.mk.inj (Option.some.inj result')
      exact partitioned
  · obtain ⟨fuel, outcome, search⟩ := (queues.findTask pid).2
    obtain ⟨ret, t, result, -⟩ := step fuel outcome search
    exact ⟨fuel, ret, t, result⟩

theorem Partitioned.sysSignal (partitioned : Partitioned s) (signum : BitVec 32) (handler : Word) :
    ∃ ret t, s.sysSignal signum handler = some (ret, t) ∧ Partitioned t := by
  obtain ⟨running, zombies, queues, current⟩ := partitioned
  rw [Sched.sysSignal]
  split
  · rw [deref_some (queues.allocated _ current)]
    exact ⟨0, _, rfl, running, zombies, ⟨queues.head, queues.ring, queues.runningNodup,
      queues.runningMembers, queues.chain, queues.zombiesNodup, queues.zombieMembers⟩, current⟩
  · exact ⟨-1, s, rfl, running, zombies, queues, current⟩

/-- The tasks of a list are no longer allocated. -/
def forget (s : Sched) (tasks : List ℕ) : Sched :=
  { s with allocated := fun x => s.allocated x && !decide (x ∈ tasks) }

/-- Reclaiming a chain frees exactly its tasks, one unit of fuel for each. -/
private theorem reclaim_eq {pointer : Option ℕ} {tasks : List ℕ}
    (chain : Chain s.next pointer tasks) (nodup : tasks.Nodup)
    (allocated : ∀ x ∈ tasks, s.allocated x = true) (fuel : ℕ) :
    s.reclaim fuel pointer = if tasks.length ≤ fuel then some (forget s tasks) else none := by
  induction tasks generalizing s pointer fuel with
  | nil =>
    have ended : pointer = none := chain
    subst ended
    have same : forget s [] = s := by simp [forget]
    cases fuel <;> simp [reclaim, same]
  | cons task rest ih =>
    obtain ⟨rfl, chainRest⟩ := chain
    obtain ⟨notIn, nodupRest⟩ := List.nodup_cons.mp nodup
    cases fuel with
    | zero => simp [reclaim]
    | succ fuel =>
      have freed : forget { s with allocated := Function.update s.allocated task false } rest =
          forget s (task :: rest) := by
        rw [forget, forget]
        congr 1
        funext x
        rcases eq_or_ne x task with rfl | other
        · simp
        · simp [other]
      have next :=
        ih (s := { s with allocated := Function.update s.allocated task false }) chainRest nodupRest
        (fun x member => by
          have other : x ≠ task := fun same => notIn (same ▸ member)
          simp [other, allocated x (List.mem_cons_of_mem task member)]) fuel
      rw [freed] at next
      simp [reclaim, getNext, deref, allocated task List.mem_cons_self, next]

theorem Queues.killZombies (queues : Queues s running zombies) (fuel : ℕ) :
    s.killZombies fuel = (if zombies.length ≤ fuel then
      some (forget { s with zombieQueue := none } zombies) else none) ∧
    Queues (forget { s with zombieQueue := none } zombies) running [] := by
  constructor
  · exact reclaim_eq (s := { s with zombieQueue := none }) queues.chain queues.zombiesNodup
      (fun x member => ((queues.zombieMembers x).mp member).1) fuel
  · refine ⟨queues.head, queues.ring, queues.runningNodup, fun x => ?_, rfl,
      List.nodup_nil, fun x => ?_⟩
    · have old := queues.runningMembers x
      have apart := queues.disjoint x
      simp only [forget, Bool.and_eq_true, Bool.not_eq_true', decide_eq_false_iff_not]
      constructor
      · intro member
        exact ⟨⟨(old.mp member).1, fun inZombies => apart inZombies member⟩, (old.mp member).2⟩
      · rintro ⟨⟨allocated, -⟩, state⟩
        exact old.mpr ⟨allocated, state⟩
    · have old := queues.zombieMembers x
      simp only [forget, Bool.and_eq_true, Bool.not_eq_true', decide_eq_false_iff_not,
        List.not_mem_nil, false_iff]
      rintro ⟨⟨allocated, notIn⟩, state⟩
      exact notIn (old.mpr ⟨allocated, state⟩)

end Transitions

/-! ## Runs -/

/-- One transition keeps the partition. -/
theorem Partitioned.step {s t : Sched} {event : Event} (partitioned : Partitioned s)
    (step : (transitions.restrict NotLast).Step s event t) : Partitioned t := by
  obtain ⟨notLast, fuel, result⟩ := step
  obtain ⟨running, zombies, queues, current⟩ := partitioned
  have spawned : ∀ {task handlers}, s.spawn task handlers = some t → Partitioned t := by
    intro task handlers result
    cases fresh : s.allocated task with
    | true => simp [Sched.spawn, fresh] at result
    | false =>
      obtain ⟨t', result', queues', same⟩ := queues.spawn fresh handlers
      rw [result] at result'
      obtain rfl := Option.some.inj result'
      exact ⟨_, _, queues', same ▸ List.mem_append_left _ current⟩
  cases event with
  | threadCreate task => exact spawned result
  | createUserProcess task => exact spawned result
  | sysFork task =>
    rw [perform, Sched.sysFork, deref_some (queues.allocated _ current)] at result
    exact spawned result
  | creationFailed =>
    obtain rfl := Option.some.inj result
    exact ⟨running, zombies, ⟨queues.head, queues.ring, queues.runningNodup, queues.runningMembers,
      queues.chain, queues.zombiesNodup, queues.zombieMembers⟩, current⟩
  | schedule =>
    obtain ⟨t', result', partitioned⟩ := queues.schedule (List.ne_nil_of_mem current)
    rw [perform, result'] at result
    obtain rfl := Option.some.inj result
    exact partitioned
  | threadExit =>
    obtain ⟨t', result', partitioned⟩ := queues.threadExit current (notLast rfl)
    rw [perform, result'] at result
    obtain rfl := Option.some.inj result
    exact partitioned
  | sysStop pid =>
    obtain ⟨⟨ret, t'⟩, result', rfl⟩ := Option.map_eq_some_iff.mp result
    exact (Partitioned.sysStop ⟨running, zombies, queues, current⟩ pid).1 fuel ret t' result'
  | sysKill pid signum =>
    obtain ⟨⟨ret, t'⟩, result', rfl⟩ := Option.map_eq_some_iff.mp result
    exact (Partitioned.sysKill ⟨running, zombies, queues, current⟩ pid signum).1 fuel ret t' result'
  | sysSignal signum handler =>
    obtain ⟨ret, t', result', partitioned⟩ :=
      Partitioned.sysSignal ⟨running, zombies, queues, current⟩ signum handler
    rw [perform, result', Option.map_some] at result
    obtain rfl := Option.some.inj result
    exact partitioned
  | killZombies =>
    obtain ⟨result', queues'⟩ := queues.killZombies fuel
    rw [perform, result'] at result
    split at result
    · obtain rfl := Option.some.inj result
      exact ⟨running, [], queues', current⟩
    · exact absurd result (by simp)

/-- A running task keeps its number in a step, and runs on unless it becomes a zombie. -/
theorem Partitioned.survives {s t : Sched} {event : Event} {task : ℕ} (partitioned : Partitioned s)
    (step : transitions.Step s event t) (allocated : s.allocated task = true)
    (state : s.state task = .running) :
    Survives s t task := by
  obtain ⟨fuel, result⟩ := step
  have unchanged : SameTasks s s := ⟨rfl, rfl, rfl⟩
  cases event with
  | threadCreate new => exact survives_spawn result allocated state
  | createUserProcess new => exact survives_spawn result allocated state
  | sysFork new =>
    obtain ⟨parent, -, result⟩ := Option.bind_eq_some_iff.mp result
    exact survives_spawn result allocated state
  | creationFailed =>
    obtain rfl := Option.some.inj result
    exact ⟨allocated, rfl, .inl state⟩
  | schedule => exact (sameTasks_schedule result).survives allocated state
  | threadExit => exact survives_threadExit result allocated state
  | sysStop pid =>
    obtain ⟨stopped, stops, rfl⟩ := Option.map_eq_some_iff.mp result
    exact survives_sysStop stops allocated state
  | sysKill pid signum =>
    obtain ⟨⟨ret, killed⟩, kills, rfl⟩ := Option.map_eq_some_iff.mp result
    rw [Sched.sysKill] at kills
    split at kills
    · obtain ⟨outcome, -, kills⟩ := Option.bind_eq_some_iff.mp kills
      split at kills
      · cases kills
        exact unchanged.survives allocated state
      · split at kills
        · cases kills
          exact ⟨allocated, rfl, .inl state⟩
        · obtain ⟨stopped, inner, kills⟩ := Option.bind_eq_some_iff.mp kills
          cases kills
          have survives := survives_sysStop inner allocated state
          exact survives
    · cases kills
      exact unchanged.survives allocated state
  | sysSignal signum handler =>
    obtain ⟨⟨ret, t⟩, signals, rfl⟩ := Option.map_eq_some_iff.mp result
    rw [Sched.sysSignal] at signals
    split at signals
    · obtain ⟨curr, -, signals⟩ := Option.bind_eq_some_iff.mp signals
      cases signals
      exact ⟨allocated, rfl, .inl state⟩
    · cases signals
      exact unchanged.survives allocated state
  | killZombies =>
    obtain ⟨running, zombies, queues, -⟩ := partitioned
    obtain ⟨result', -⟩ := queues.killZombies fuel
    have notZombie : task ∉ zombies := fun inside => by
      cases state.symm.trans ((queues.zombieMembers task).mp inside).2
    obtain ⟨-, same⟩ := Option.ite_none_right_eq_some.mp (result'.symm.trans result)
    obtain rfl := Option.some.inj same
    exact ⟨by simp [forget, allocated, notZombie], rfl, .inl state⟩

/-- No transition that is allowed gets stuck. -/
theorem Partitioned.progress {s : Sched} {event : Event} (partitioned : Partitioned s)
    (fresh : Fresh s event) (notLast : NotLast s event) : ∃ t, transitions.Step s event t := by
  obtain ⟨running, zombies, queues, current⟩ := partitioned
  cases event with
  | threadCreate task =>
    obtain ⟨t, result, -⟩ := queues.spawn fresh fun _ => 0#64
    exact ⟨t, 0, result⟩
  | createUserProcess task =>
    obtain ⟨t, result, -⟩ := queues.spawn fresh fun _ => 0#64
    exact ⟨t, 0, result⟩
  | sysFork task =>
    obtain ⟨t, result, -⟩ := queues.spawn fresh (s.sigHandlers s.current)
    refine ⟨t, 0, ?_⟩
    rw [perform, Sched.sysFork, deref_some (queues.allocated _ current)]
    exact result
  | creationFailed => exact ⟨_, 0, rfl⟩
  | schedule =>
    obtain ⟨t, result, -⟩ := queues.schedule (List.ne_nil_of_mem current)
    exact ⟨t, 0, result⟩
  | threadExit =>
    obtain ⟨t, result, -⟩ := queues.threadExit current (notLast rfl)
    exact ⟨t, 0, result⟩
  | sysStop pid =>
    obtain ⟨fuel, ret, t, result⟩ := (Partitioned.sysStop ⟨running, zombies, queues, current⟩ pid).2
    exact ⟨t, fuel, by rw [perform, result]; rfl⟩
  | sysKill pid signum =>
    obtain ⟨fuel, ret, t, result⟩ :=
      (Partitioned.sysKill ⟨running, zombies, queues, current⟩ pid signum).2
    exact ⟨t, fuel, by rw [perform, result]; rfl⟩
  | sysSignal signum handler =>
    obtain ⟨ret, t, result, -⟩ :=
      Partitioned.sysSignal ⟨running, zombies, queues, current⟩ signum handler
    exact ⟨t, 0, by rw [perform, result]; rfl⟩
  | killZombies =>
    have reclaimed := (queues.killZombies zombies.length).1
    rw [if_pos (le_refl _)] at reclaimed
    exact ⟨_, zombies.length, reclaimed⟩

/-- At boot the idle task is alone on the run queue. -/
theorem queues_boot {idle : ℕ} {s : Sched} (boot : Sched.boot idle = some s) :
    Queues s [idle] [] ∧ s.current = idle := by
  have empty : Queues Sched.empty [] [] :=
    ⟨rfl, trivial, List.nodup_nil, by simp [Sched.empty], rfl,
      List.nodup_nil, by simp [Sched.empty]⟩
  have fresh : Sched.empty.allocated idle = false := rfl
  obtain ⟨t, created, queues, -⟩ := empty.spawn fresh fun _ => 0#64
  rw [Sched.boot, Sched.threadCreate, created, Option.map_some] at boot
  obtain rfl := Option.some.inj boot
  exact ⟨⟨queues.head, queues.ring, queues.runningNodup, queues.runningMembers, queues.chain,
    queues.zombiesNodup, queues.zombieMembers⟩, rfl⟩

private theorem partitioned_boot {idle : ℕ} {s : Sched} (boot : Sched.boot idle = some s) :
    Partitioned s := by
  obtain ⟨queues, current⟩ := queues_boot boot
  exact ⟨[idle], [], queues, current ▸ List.mem_singleton_self s.current⟩

/-- In every run from boot in which no task exits while alone on the run queue, the queues partition
the tasks in every state, `schedule` dispatches a running task, and no operation gets stuck. -/
theorem queues_partition {idle : ℕ} {booted s : Sched} {events : List Event}
    (boot : Sched.boot idle = some booted)
    (run : System.Path (transitions.restrict NotLast) booted events s) :
    Partitioned s ∧ (∀ t, s.schedule = some t → t.state t.current = .running) ∧
      ∀ event, Fresh s event → NotLast s event → ∃ t, transitions.Step s event t := by
  have partitioned : Partitioned s :=
    run.invariant (fun partitioned step => partitioned.step step) (partitioned_boot boot)
  refine ⟨partitioned, fun t result => ?_, fun event => partitioned.progress⟩
  have step : (transitions.restrict NotLast).Step s .schedule t :=
    ⟨fun exit => Event.noConfusion exit, 0, result⟩
  obtain ⟨running, zombies, queues, current⟩ := partitioned.step step
  exact ((queues.runningMembers _).mp current).2

/-- A sequence of operations with the same bound on their loops. -/
private theorem path_of_foldlM {fuel : ℕ} {s t : Sched} {events : List Event}
    (result : events.foldlM (perform fuel) s = some t) : System.Path transitions s events t := by
  apply (System.Path.of_foldlM result).mono
  exact fun taken => ⟨fuel, taken⟩

/-- A user process stops the idle task and the shell and exits: `run_queue` stays at its own
`task_struct`, whose `next` now leads to the zombie queue, and the stopped shell is dispatched. -/
theorem queues_broken : ¬ ∀ (idle : ℕ) (booted s : Sched)
    (events : List Event), Sched.boot idle = some booted →
    System.Path transitions booted events s → Partitioned s := by
  intro always
  have result : (Sched.boot 1).bind (fun booted =>
      ([.threadCreate 2, .schedule, .createUserProcess 3, .schedule, .schedule, .sysStop 0#32,
        .sysStop 1#32, .threadExit].foldlM (perform 3) booted).map fun s =>
        (s.current, s.state s.current)) =
      some (2, .zombie) := by
    decide
  obtain ⟨booted, boot, rest⟩ := Option.bind_eq_some_iff.mp result
  obtain ⟨s, run, broken⟩ := Option.map_eq_some_iff.mp rest
  obtain ⟨-, state⟩ := Prod.mk.inj broken
  obtain ⟨running, zombies, queues, current⟩ := always 1 booted s _ boot (path_of_foldlM run)
  rw [((queues.runningMembers _).mp current).2] at state
  exact absurd state (by decide)

/-- The shell exits while the idle task is still on the run queue. -/
theorem queues_partition_exit : ∃ booted s, Sched.boot 1 = some booted ∧
    System.Path (transitions.restrict NotLast) booted [.threadCreate 2, .schedule, .threadExit] s ∧
    Partitioned s ∧ s.current = 1 := by
  have result : (Sched.boot 1).bind
      (fun booted => (perform 0 booted (.threadCreate 2)).bind fun first =>
      (perform 0 first .schedule).bind fun second => (perform 0 second .threadExit).map fun third =>
        (second.next second.current, second.current, third.current)) = some (some 1, 2, 1) := by
    decide
  obtain ⟨booted, boot, rest⟩ := Option.bind_eq_some_iff.mp result
  obtain ⟨first, create, rest⟩ := Option.bind_eq_some_iff.mp rest
  obtain ⟨second, schedule, rest⟩ := Option.bind_eq_some_iff.mp rest
  obtain ⟨third, exit, observed⟩ := Option.map_eq_some_iff.mp rest
  simp only [Prod.mk.injEq] at observed
  have run : System.Path (transitions.restrict NotLast) booted [.threadCreate 2,
      .schedule, .threadExit] third := by
    refine .cons ⟨fun other => Event.noConfusion other, 0, create⟩
      (.cons ⟨fun other => Event.noConfusion other, 0, schedule⟩
        (.cons ⟨fun _ => ?_, 0, exit⟩ (.nil third)))
    rw [observed.1, observed.2.1]
    decide
  exact ⟨booted, third, boot, run, (queues_partition boot run).1, observed.2.2⟩

end OscKernel.Soundness.TaskQueues
