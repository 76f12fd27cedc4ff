import Mathlib.Logic.Function.Basic
import OscKernel.Model.Address

/-! # The scheduler's queues

sched.c and the callers in syscall.c that move tasks between its queues. A `task_struct` is named by
its address, and its fields are maps over addresses; a pointer is `none` when it is null. Reading or
writing through a pointer that is null or not allocated is undefined, and the operation then has no
result. The operations run with interrupts disabled or are taken as one step.
-/

namespace OscKernel.Model

/-- The `state` of a task. -/
inductive TaskState where
  | running
  | zombie
  | waiting
  deriving DecidableEq

/-- The globals of sched.c, the `tp` register, and the fields of the tasks. -/
structure Sched where
  allocated : ℕ → Bool
  pid : ℕ → BitVec 32
  state : ℕ → TaskState
  sigHandlers : ℕ → Fin 32 → Word
  pendingSignals : ℕ → BitVec 32
  next : ℕ → Option ℕ
  prev : ℕ → Option ℕ
  runQueue : Option ℕ
  zombieQueue : Option ℕ
  current : ℕ
  nrThreads : BitVec 32

namespace Sched

/-- The task a pointer may be followed to. -/
def deref (s : Sched) : Option ℕ → Option ℕ
  | none => none
  | some task => if s.allocated task then some task else none

def getNext (s : Sched) (pointer : Option ℕ) : Option (Option ℕ) := (s.deref pointer).map s.next
def getPrev (s : Sched) (pointer : Option ℕ) : Option (Option ℕ) := (s.deref pointer).map s.prev

def setNext (s : Sched) (pointer value : Option ℕ) : Option Sched :=
  (s.deref pointer).map fun task => { s with next := Function.update s.next task value }

def setPrev (s : Sched) (pointer value : Option ℕ) : Option Sched :=
  (s.deref pointer).map fun task => { s with prev := Function.update s.prev task value }

def setState (s : Sched) (pointer : Option ℕ) (value : TaskState) : Option Sched :=
  (s.deref pointer).map fun task => { s with state := Function.update s.state task value }

/-- `enqueue(&run_queue, task)`. -/
def enqueue (s : Sched) (task : ℕ) : Option Sched :=
  match s.runQueue with
  | none => do
    let s ← { s with runQueue := some task }.setNext (some task) (some task)
    s.setPrev (some task) (some task)
  | some head => do
    let s ← s.setNext (← s.getPrev (some head)) (some task)
    let s ← s.setNext (some task) (some head)
    let s ← s.setPrev (some task) (← s.getPrev (some head))
    s.setPrev (some head) (some task)

def dequeue (s : Sched) (task : ℕ) : Option Sched := do
  let s ← s.setPrev (← s.getNext (some task)) (← s.getPrev (some task))
  let s ← s.setNext (← s.getPrev (some task)) (← s.getNext (some task))
  let following ← s.getNext (some task)
  let s := { s with runQueue := if s.runQueue = some task then following else s.runQueue }
  let s ← s.setNext (some task) none
  s.setPrev (some task) none

/-- `curr->next = zombie_queue; zombie_queue = curr`. -/
def pushZombie (s : Sched) (task : ℕ) : Option Sched := do
  let s ← s.setNext (some task) s.zombieQueue
  some { s with zombieQueue := some task }

/-- `schedule`; switching reads the page table of the next task, so its pointer is followed. -/
def schedule (s : Sched) : Option Sched :=
  match s.runQueue with
  | none => some s
  | some head => do
    let runQueue ← if s.current = head then s.getNext (some head) else some (some head)
    let s := { s with runQueue := runQueue }
    if runQueue = some s.current then some s
    else
      let chosen ← s.deref runQueue
      some { s with current := chosen }

/-- `thread_exit` of the current task. -/
def threadExit (s : Sched) : Option Sched := do
  let curr := s.current
  let s ← s.setState (some curr) .zombie
  let s ← s.dequeue curr
  let s ← s.pushZombie curr
  s.schedule

/-- `thread_exit` up to its call of `schedule`. -/
def leaveQueue (s : Sched) : Option Sched := do
  let curr := s.current
  let s ← s.setState (some curr) .zombie
  let s ← s.dequeue curr
  s.pushZombie curr

/-- The loop of `kill_zombies`, for at most `fuel` tasks. -/
def reclaim (s : Sched) : ℕ → Option ℕ → Option Sched
  | _, none => some s
  | 0, some _ => none
  | fuel + 1, some temp => do
    let curr ← s.getNext (some temp)
    reclaim { s with allocated := Function.update s.allocated temp false } fuel curr

def killZombies (s : Sched) (fuel : ℕ) : Option Sched :=
  { s with zombieQueue := none }.reclaim fuel s.zombieQueue

/-- The task `thread_create`, `create_user_process` and `sys_fork` put on the run queue, in memory
that was not a task before. -/
def spawn (s : Sched) (task : ℕ) (handlers : Fin 32 → Word) : Option Sched :=
  if s.allocated task then none
  else
    { s with
      allocated := Function.update s.allocated task true
      pid := Function.update s.pid task s.nrThreads
      state := Function.update s.state task .running
      sigHandlers := Function.update s.sigHandlers task handlers
      pendingSignals := Function.update s.pendingSignals task 0#32
      next := Function.update s.next task none
      prev := Function.update s.prev task none
      nrThreads := s.nrThreads + 1#32 }.enqueue task

def threadCreate (s : Sched) (task : ℕ) : Option Sched := s.spawn task fun _ => 0#64

def createUserProcess (s : Sched) (task : ℕ) : Option Sched := s.spawn task fun _ => 0#64

def sysFork (s : Sched) (task : ℕ) : Option Sched := do
  let parent ← s.deref (some s.current)
  s.spawn task (s.sigHandlers parent)

/-- The search of `sys_stop` and `sys_kill` along the run queue from `curr`, for at most `fuel`
tasks. The inner `none` means that no task has the number. -/
def findPid (s : Sched) (pid : BitVec 32) : ℕ → ℕ → Option (Option ℕ)
  | 0, _ => none
  | fuel + 1, curr =>
    if s.pid curr = pid then some (some curr)
    else do
      let following ← s.getNext (some curr)
      if following = s.runQueue then some none
      else findPid s pid fuel (← s.deref following)

/-- The search from the head of the run queue; an empty queue has nobody. -/
def findTask (s : Sched) (pid : BitVec 32) (fuel : ℕ) : Option (Option ℕ) :=
  match s.runQueue with
  | none => some none
  | some head => do s.findPid pid fuel (← s.deref (some head))

/-- A look of `sys_waitpid` at the run queue, with its return value unless it goes on waiting. -/
def waitpidLook (s : Sched) (pid : BitVec 32) (fuel : ℕ) : Option (Option ℤ) := do
  match ← s.findTask pid fuel with
  | none => some (some (-1))
  | some p => if s.state p = .zombie then some (some pid.toInt) else some none

/-- `sys_stop` with its return value. -/
def sysStop (s : Sched) (pid : BitVec 32) (fuel : ℕ) : Option (ℤ × Sched) := do
  match ← s.findTask pid fuel with
  | none => some (-1, s)
  | some curr =>
    if curr = s.current then some (-1, s)
    else do
      let s ← s.dequeue curr
      let s ← s.setState (some curr) .zombie
      let s ← s.pushZombie curr
      some (0, s)

/-- `sys_kill` with its return value. -/
def sysKill (s : Sched) (pid signum : BitVec 32) (fuel : ℕ) : Option (ℤ × Sched) :=
  if h : 0 ≤ signum.toInt ∧ signum.toNat < 32 then do
    match ← s.findTask pid fuel with
    | none => some (-1, s)
    | some target =>
      if s.sigHandlers target ⟨signum.toNat, h.2⟩ ≠ 0#64 then
        let pending := s.pendingSignals target ||| (1#32 <<< signum.toNat)
        some (0, { s with pendingSignals := Function.update s.pendingSignals target pending })
      else do
        let stopped ← s.sysStop pid fuel
        some (-1, stopped.2)
  else some (-1, s)

/-- `sys_signal` with its return value. -/
def sysSignal (s : Sched) (signum : BitVec 32) (handler : Word) : Option (ℤ × Sched) :=
  if h : 0 ≤ signum.toInt ∧ signum.toNat < 32 then do
    let curr ← s.deref (some s.current)
    let handlers := Function.update (s.sigHandlers curr) ⟨signum.toNat, h.2⟩ handler
    some (0, { s with sigHandlers := Function.update s.sigHandlers curr handlers })
  else some (-1, s)

/-- Before `thread_create(idle)`: no task. -/
def empty : Sched where
  allocated := fun _ => false
  pid := fun _ => 0#32
  state := fun _ => .running
  sigHandlers := fun _ _ => 0#64
  pendingSignals := fun _ => 0#32
  next := fun _ => none
  prev := fun _ => none
  runQueue := none
  zombieQueue := none
  current := 0
  nrThreads := 0#32

/-- `start_kernel` makes the idle task current. -/
def boot (idle : ℕ) : Option Sched :=
  (empty.threadCreate idle).map fun s => { s with current := idle }

end Sched

end OscKernel.Model
