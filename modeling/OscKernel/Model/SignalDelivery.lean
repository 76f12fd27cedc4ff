import OscKernel.Model.Signals

/-! # Signals by number

`sys_signal`, `sys_kill` and `check_pending_signals` on all of the 32 handlers and pending bits of a
task. A task is named by its process number, which is not used twice, and the table holds the tasks
on the run queue. A system call runs with interrupts enabled: the read and the write of
`pending_signals |= bit` in `sys_kill` are two steps, and what was read in between belongs to the
killer. A bit written for a task that has left the queue meanwhile is seen by nobody.
-/

namespace OscKernel.Model

/-- The fields of `task_struct` behind signals, with the trap frame; `savedRegs` is the copy of a
frame. -/
structure SignalTask where
  sigHandlers : Fin 32 → Word
  pendingSignals : BitVec 32
  regs : Vm.PtRegs
  savedRegs : Option Vm.PtRegs

/-- `1 << signum`. -/
def signalBit (signum : Fin 32) : BitVec 32 := 1#32 <<< signum.val

/-- `check_pending_signals`, with the signal whose handler it enters. -/
def SignalTask.checkPendingSignals (curr : SignalTask) : SignalTask × Option (Fin 32) :=
  if curr.pendingSignals = 0#32 then (curr, none)
  else
    let signum : Fin 32 := 15
    let handler := curr.sigHandlers signum
    if handler ≠ 0#64 ∧ curr.pendingSignals &&& signalBit signum ≠ 0#32 then
      ({ curr with
          savedRegs := some curr.regs
          regs := Processes.enterHandler curr.regs handler
          pendingSignals := curr.pendingSignals &&& ~~~signalBit signum }, some signum)
    else (curr, none)

/-- A signal number that `sys_signal` and `sys_kill` accept. -/
def acceptedSignal (signum : BitVec 32) : Option (Fin 32) :=
  if signum.toInt < 0 then none
  else if h : signum.toNat < 32 then some ⟨signum.toNat, h⟩ else none

/-- `sys_signal` with its result. -/
def SignalTask.sysSignal (curr : SignalTask) (signum : BitVec 32)
    (handler : Word) : ℤ × SignalTask :=
  match acceptedSignal signum with
  | none => (-1, curr)
  | some signum => (0, { curr with sigHandlers := Function.update curr.sigHandlers signum handler })

/-- `sys_sigreturn`. -/
def SignalTask.sysSigreturn (curr : SignalTask) : SignalTask :=
  match curr.savedRegs with
  | some regs => { curr with regs, savedRegs := none }
  | none => curr

/-- A bit that is being added: the target, the signal, and the pending signals that were read. -/
structure Posting where
  target : ℕ
  signum : Fin 32
  loaded : BitVec 32

/-- The run queue by process number, and the calls of `sys_kill` between their read and their
write. -/
structure SignalTasks where
  task : ℕ → Option SignalTask
  posting : ℕ → Option Posting
  nrThreads : ℕ

namespace SignalTasks

def setTask (s : SignalTasks) (pid : ℕ) (task : Option SignalTask) : SignalTasks :=
  { s with task := Function.update s.task pid task }

def setPosting (s : SignalTasks) (killer : ℕ) (posting : Option Posting) : SignalTasks :=
  { s with posting := Function.update s.posting killer posting }

/-- `sys_stop`, which refuses to stop the caller. -/
def sysStop (s : SignalTasks) (killer pid : ℕ) : SignalTasks :=
  if pid = killer then s else s.setTask pid none

/-- `sys_kill` up to the write of the pending bit, which is still to come where there is no result
yet. -/
def sysKill (s : SignalTasks) (killer pid : ℕ) (signum : BitVec 32) : Option ℤ × SignalTasks :=
  match acceptedSignal signum with
  | none => (some (-1), s)
  | some signum =>
    match s.task pid with
    | none => (some (-1), s)
    | some target =>
      if target.sigHandlers signum ≠ 0#64 then
        (none, s.setPosting killer (some ⟨pid, signum, target.pendingSignals⟩))
      else (some (-1), s.sysStop killer pid)

/-- The write, after which `sys_kill` returns 0. -/
def post (s : SignalTasks) (killer : ℕ) (posting : Posting) : SignalTasks :=
  let s := s.setPosting killer none
  match s.task posting.target with
  | none => s
  | some target =>
    s.setTask posting.target
      (some { target with pendingSignals := posting.loaded ||| signalBit posting.signum })

/-- A task from `create_user_process`, or the child that `sys_fork` gives the parent's handlers. -/
def start (s : SignalTasks) (sigHandlers : Fin 32 → Word) (regs : Vm.PtRegs) : SignalTasks :=
  { s.setTask s.nrThreads (some ⟨sigHandlers, 0#32, regs, none⟩) with nrThreads := s.nrThreads + 1 }

theorem setTask_task (s : SignalTasks) (pid other : ℕ) (task : Option SignalTask) :
    (s.setTask pid task).task other = if other = pid then task else s.task other :=
  Function.update_apply _ _ _ _

theorem setPosting_posting (s : SignalTasks) (killer other : ℕ) (posting : Option Posting) :
    (s.setPosting killer posting).posting other = if other = killer then posting
    else s.posting other :=
  Function.update_apply _ _ _ _

theorem start_task (s : SignalTasks) (sigHandlers : Fin 32 → Word) (regs : Vm.PtRegs) (other : ℕ) :
    (s.start sigHandlers regs).task other =
      if other = s.nrThreads then some ⟨sigHandlers, 0#32, regs, none⟩ else s.task other :=
  Function.update_apply _ _ _ _

end SignalTasks

end OscKernel.Model
