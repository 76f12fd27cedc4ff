import Mathlib.Logic.Function.Basic
import OscKernel.Model.Address

/-! # Deferred tasks of lab4

task.c of lab4 with the parts of main.c and uart.c that queue tasks, mask interrupts or set the
current priority. A step is what runs with interrupts disabled; between two steps, in a callback or
outside of every task, another trap may arrive. `run_preemptive_tasks` is then inside the callback
of each task that was started and has not returned, and the frames of these calls lie on the stack,
the innermost first. The queue is the list that the `next` pointers make.
-/

namespace OscKernel.Model

inductive Callback where
  | handleTimerInterruptTask
  | uartRxTask
  | other (id : ℕ)
  deriving DecidableEq

/-- `task_t`. -/
structure Task where
  priority : ℤ
  callback : Callback
  arg : Word

/-- A call of `run_preemptive_tasks` while its callback runs. -/
structure RunFrame where
  idx : Fin 64
  cb : Callback
  oldPriority : ℤ

inductive TaskPc where
  /-- A callback, the main loop or user code, with interrupts enabled. -/
  | enabled
  /-- `do_trap` before its call of `run_preemptive_tasks`. -/
  | doTrap
  /-- The head of the loop of `run_preemptive_tasks`. -/
  | runPreemptiveTasks
  deriving DecidableEq

structure TaskMachine where
  taskUsed : Fin 64 → Bool
  taskPool : Fin 64 → Task
  taskQueue : List (Fin 64)
  currentTaskPriority : ℤ
  /-- Bit 5 of `sie`. -/
  sieTimer : Bool
  /-- Bit 0 of the IER. -/
  ierRx : Bool
  pc : TaskPc
  frames : List RunFrame

inductive TaskEvent where
  /-- An interrupt or an `ecall`. -/
  | trap
  /-- The timer case of `do_trap`. -/
  | timer
  /-- The receive case of `uart_isr`. -/
  | receive (c : BitVec 8)
  /-- A call of `add_task` in a callback or in an interrupt handler. -/
  | addTask (callback : Callback) (arg : Word) (priority : ℤ)
  /-- `do_trap` calls `run_preemptive_tasks`. -/
  | run
  /-- The loop starts a task. -/
  | start
  /-- The loop ends. -/
  | leave
  /-- A callback returns. -/
  | finish
  /-- The shell command `exec`, with a name that is in the archive or not. -/
  | exec (found : Bool)
  deriving DecidableEq

namespace TaskMachine

/-! ## The queue -/

/-- The walk along the queue: past `curr`, whose successors are given. -/
def insertAfter (pool : Fin 64 → Task) (newNode : Fin 64) (priority : ℤ) :
    Fin 64 → List (Fin 64) → List (Fin 64)
  | curr, [] => [curr, newNode]
  | curr, next :: rest =>
    if (pool next).priority ≤ priority then curr :: insertAfter pool newNode priority next rest
    else curr :: newNode :: next :: rest

def insertTask (pool : Fin 64 → Task) (newNode : Fin 64) (priority : ℤ) :
    List (Fin 64) → List (Fin 64)
  | [] => [newNode]
  | head :: rest =>
    if priority < (pool head).priority then newNode :: head :: rest
    else insertAfter pool newNode priority head rest

/-- The slot that the loop of `add_task` finds. -/
def freeSlot (s : TaskMachine) : Option (Fin 64) := (List.finRange 64).find? fun i => !s.taskUsed i

/-- `add_task`. -/
def addTask (s : TaskMachine) (callback : Callback) (arg : Word) (priority : ℤ) : TaskMachine :=
  match s.freeSlot with
  | none => s
  | some i => { s with
    taskUsed := Function.update s.taskUsed i true
    taskPool := Function.update s.taskPool i ⟨priority, callback, arg⟩
    taskQueue := insertTask s.taskPool i priority s.taskQueue }

/-! ## Steps -/

/-- What follows the callback in `run_preemptive_tasks`. -/
def finish (s : TaskMachine) (frame : RunFrame) (outer : List RunFrame) : TaskMachine := { s with
  ierRx := if frame.cb = .uartRxTask then true else s.ierRx
  sieTimer := if frame.cb = .handleTimerInterruptTask then true else s.sieTimer
  currentTaskPriority := frame.oldPriority
  taskUsed := Function.update s.taskUsed frame.idx false
  pc := .runPreemptiveTasks
  frames := outer }

/-- One iteration of the loop that starts the task at the head of the queue. -/
def start (s : TaskMachine) (t : Fin 64) (rest : List (Fin 64)) : TaskMachine := { s with
  taskQueue := rest
  currentTaskPriority := (s.taskPool t).priority
  pc := .enabled
  frames := ⟨t, (s.taskPool t).callback, s.currentTaskPriority⟩ :: s.frames }

/-- Whether the loop of `run_preemptive_tasks` ends. -/
def ends (s : TaskMachine) : Bool :=
  match s.taskQueue with
  | [] => true
  | head :: _ => (s.taskPool head).priority ≥ s.currentTaskPriority

/-- `exec` leaves its callers by `sret` where it finds the program. -/
def exec (s : TaskMachine) (found : Bool) : TaskMachine := { s with
  currentTaskPriority := 999
  frames := if found then [] else s.frames }

def step (s : TaskMachine) : TaskEvent → Option TaskMachine
  | .trap => if s.pc = .enabled then some { s with pc := .doTrap } else none
  | .timer =>
    if s.pc = .doTrap ∧ s.sieTimer then
      some ({ s with sieTimer := false }.addTask .handleTimerInterruptTask 0#64 5)
    else none
  | .receive c =>
    if s.pc = .doTrap ∧ s.ierRx then
      some ({ s with ierRx := false }.addTask .uartRxTask (c.zeroExtend 64) 1)
    else none
  | .addTask callback arg priority =>
    if s.pc = .doTrap ∨ s.pc = .enabled ∧ s.frames ≠ [] then some (s.addTask callback arg priority)
    else none
  | .run => if s.pc = .doTrap then some { s with pc := .runPreemptiveTasks } else none
  | .start =>
    match s.taskQueue with
    | [] => none
    | t :: rest => if s.pc = .runPreemptiveTasks ∧ !s.ends then some (s.start t rest) else none
  | .leave => if s.pc = .runPreemptiveTasks ∧ s.ends then some { s with pc := .enabled } else none
  | .finish =>
    match s.frames with
    | [] => none
    | frame :: outer => if s.pc = .enabled then some (s.finish frame outer) else none
  | .exec found =>
    match s.frames with
    | [] => none
    | frame :: _ => if s.pc = .enabled ∧ frame.cb = .uartRxTask then some (s.exec found) else none

/-- The state when interrupts are first enabled. -/
def initial : TaskMachine where
  taskUsed _ := false
  taskPool _ := ⟨0, .other 0, 0#64⟩
  taskQueue := []
  currentTaskPriority := 999
  sieTimer := true
  ierRx := true
  pc := .enabled
  frames := []

end TaskMachine

end OscKernel.Model
