import Mathlib.Data.Finset.Insert
import Mathlib.Logic.Function.Basic
import OscKernel.Model.Address

/-! # Traps and task switches

start.S with the parts of trap.c, syscall.c, sched.c and main.c that read or write trap frames,
thread contexts, `tp`, `sscratch` or the interrupt bits of `sstatus`. A position in kernel code
carries the C variables that are used later, and in assembler a step ends after the next write of a
control register. A trap frame is kept at the address it was stored at, and can no longer be read
once another one was stored over a part of it. Kernel code between the operations may leave any
value in the registers other than `tp`. A task is named by the address of its `task_struct`.
-/

namespace OscKernel.Model

/-! ## Registers and positions -/

abbrev Reg := Fin 32

def ra : Reg := ⟨1, by decide⟩
def sp : Reg := ⟨2, by decide⟩
def tp : Reg := ⟨4, by decide⟩
def a0 : Reg := ⟨10, by decide⟩

/-- The bits `SIE`, `SPIE` and `SPP` of `sstatus`. -/
structure Sstatus where
  sie : Bool
  spie : Bool
  spp : Bool
  deriving DecidableEq

inductive Cause where
  | timer
  | external
  | ecall
  | pageFault
  | other
  deriving DecidableEq

inductive Pc where
  | user (va : Word)
  /-- A kernel thread, whose stack begins at the address. -/
  | thread (top : Word)
  | doTrap (regs : Word) (cause : Cause)
  /-- Between `irq_enable` and `irq_disable` of a system call. -/
  | handleSyscall (regs : Word)
  | runPreemptiveTasks (regs : Word)
  /-- Between `irq_enable` and `irq_disable` of `run_preemptive_tasks`. -/
  | callback (regs : Word)
  /-- The default branch of `do_trap`, which ends in a loop. -/
  | report (regs : Word)
  | checkPendingSignals (regs : Word)
  | threadExit (base : Word)
  /-- `schedule` when `switch_to` has returned, before `restore_sstatus(s)`. -/
  | schedule (s : Bool) (caller : Pc)
  /-- `switch_to` before `mv tp, a1`. -/
  | mvTp (next : Word) (ra : Pc)
  | switchRet (ra : Pc)
  | retFromException
  /-- `ret_from_exception` after the branch that writes `sscratch`. -/
  | csrwSepc
  | csrwSstatus (s2 : Sstatus)
  /-- The loads up to `sret`. -/
  | restore
  deriving DecidableEq

namespace Pc

def isUser : Pc → Bool
  | user _ => true
  | _ => false

/-- The address after an `ecall`. -/
def next : Pc → Pc
  | user va => user (va + 4#64)
  | pc => pc

/-- The `regs` of `do_trap` and of what it calls. -/
def regs : Pc → Option Word
  | doTrap regs _ | handleSyscall regs | runPreemptiveTasks regs | callback regs | report regs
  | checkPendingSignals regs => some regs
  | _ => none

/-- Where the stack of C code begins. -/
def base : Pc → Option Word
  | thread top => some top
  | threadExit base => some base
  | pc => pc.regs

/-- Code that may run with interrupts enabled, apart from the end of `switch_to`. -/
def mayEnable : Pc → Bool
  | thread _ | handleSyscall _ | callback _ | report _ | threadExit _ => true
  | _ => false

end Pc

/-! ## State -/

/-- `struct pt_regs` without the trap cause, which `do_trap` reads at once. -/
structure PtRegs where
  x : Reg → Word
  epc : Pc
  sstatus : Sstatus

/-- `sizeof(struct pt_regs)`. -/
def ptRegsSize : Word := 280#64

/-- `struct thread_struct`; the other registers of a context come back unchanged. -/
structure Thread where
  ra : Pc
  sp : Word
  sstatus : Sstatus

structure Machine where
  pc : Pc
  x : Reg → Word
  sstatus : Sstatus
  sepc : Pc
  sscratch : Word
  frames : Word → Option PtRegs
  thread : Word → Thread
  kernelSp : Word → Word
  stack : Word → Word
  savedRegs : Word → Option PtRegs
  /-- The tasks that are not reclaimed. -/
  live : Finset Word
  /-- The run queue; a live task that is not on it is a zombie. -/
  runnable : Finset Word
  /-- The task that `switch_to` switched to last. -/
  dispatched : Word

namespace Machine

def getCurrent (s : Machine) : Word := s.x tp

def setSie (s : Machine) (on : Bool) : Machine := { s with sstatus := { s.sstatus with sie := on } }

/-- Storing a frame; parts of others may be lost. -/
def store (frames : Word → Option PtRegs) (regs : Word) (r : PtRegs) :
    Word → Option PtRegs := fun a =>
  if a = regs then some r
  else if a - regs < ptRegsSize ∨ regs - a < ptRegsSize then none
  else frames a

/-! ## Trap entry and return -/

/-- A trap, `handle_exception` and the call of `do_trap`. -/
def handleException (s : Machine) (cause : Cause) : Machine :=
  let top := if s.sscratch ≠ 0#64 then s.sscratch else s.x sp
  let regs := top - ptRegsSize
  let sstatus : Sstatus := ⟨false, s.sstatus.sie, !s.pc.isUser⟩
  { s with
    frames := store s.frames regs ⟨s.x, s.pc, sstatus⟩
    sstatus := sstatus
    sepc := s.pc
    sscratch := 0#64
    x := Function.update (Function.update s.x sp regs) a0 regs
    pc := .doTrap regs cause }

/-- `ret_from_exception` up to the write of `sscratch`. -/
def retFromException (s : Machine) : Option Machine :=
  (s.frames (s.x sp)).map fun r =>
    { s with
      sscratch := if r.sstatus.spp then s.sscratch else s.x sp + ptRegsSize
      pc := .csrwSepc }

/-- The loads of `s1` and `s2`, and `csrw sepc, s1`. -/
def csrwSepc (s : Machine) : Option Machine :=
  (s.frames (s.x sp)).map fun r => { s with sepc := r.epc, pc := .csrwSstatus r.sstatus }

def csrwSstatus (s : Machine) (s2 : Sstatus) : Machine := { s with sstatus := s2, pc := .restore }

/-- The other loads and `sret`, which must return to the mode that `SPP` says. -/
def sret (s : Machine) : Option Machine :=
  (s.frames (s.x sp)).bind fun r =>
    if s.sepc.isUser = !s.sstatus.spp then
      some { s with x := r.x, pc := s.sepc, sstatus := ⟨s.sstatus.spie, true, false⟩ }
    else none

/-! ## Task switches -/

/-- `switch_to(prev, next)` up to `csrw sstatus, t0`, called from the position. -/
def switchTo (s : Machine) (prev next : Word) (caller : Pc) : Machine :=
  let thread := Function.update s.thread prev ⟨caller, s.x sp, s.sstatus⟩
  { s with
    thread := thread
    x := Function.update s.x sp (thread next).sp
    sstatus := (thread next).sstatus
    pc := .mvTp next (thread next).ra
    dispatched := next }

/-- `schedule`, called from the position, when the run queue then begins with `next`. -/
def schedule (s : Machine) (caller : Pc) (next : Word) : Machine :=
  if s.getCurrent = next then { s with pc := caller }
  else (s.setSie false).switchTo s.getCurrent next (.schedule s.sstatus.sie caller)

/-! ## Processes and threads -/

/-- `do_exec` as far as the trap frame goes. -/
def doExec (s : Machine) (task : Word) : Machine :=
  let x := Function.update (Function.update (fun _ => 0#64) tp task) sp (userStack + stackSize)
  { s with frames := store s.frames (s.kernelSp task - ptRegsSize) ⟨x, .user 0#64,
    ⟨s.sstatus.sie, true, false⟩⟩ }

/-- The end of `create_user_process`, `thread_create` and `sys_fork`: `enqueue`. -/
def enqueue (s : Machine) (task stack kernelSp : Word) (context : Thread) : Machine :=
  { s with
    stack := Function.update s.stack task stack
    kernelSp := Function.update s.kernelSp task kernelSp
    thread := Function.update s.thread task context
    savedRegs := Function.update s.savedRegs task none
    live := insert task s.live
    runnable := insert task s.runnable }

/-- `create_user_process`, with the addresses that `allocate` returns for the task and its stack. -/
def createUserProcess (s : Machine) (task stack : Word) : Machine :=
  let kernelSp := stack + stackSize
  (s.enqueue task stack kernelSp ⟨.retFromException, kernelSp - ptRegsSize, s.sstatus⟩).doExec task

def threadCreate (s : Machine) (task stack : Word) : Machine :=
  let top := stack + stackSize
  s.enqueue task stack 0#64 ⟨.thread top, top, s.sstatus⟩

/-- `memcpy(child->stack, parent->stack, STACK_SIZE)`. -/
def copyStack (frames : Word → Option PtRegs) (src dst : Word) : Word → Option PtRegs := fun a =>
  if a - dst < stackSize then
    if a - dst ≤ stackSize - ptRegsSize then frames (src + (a - dst)) else none
  else if dst - a < ptRegsSize then none
  else frames a

def sysFork (s : Machine) (regs child stack : Word) : Option Machine :=
  let parent := s.getCurrent
  let frames := copyStack s.frames (s.stack parent) stack
  let childRegs := stack + (regs - s.stack parent)
  (frames childRegs).map fun r =>
    let x := Function.update (Function.update r.x a0 0#64) tp child
    { s with frames := store frames childRegs { r with x := x, epc := r.epc.next } }.enqueue child
      stack
      (stack + stackSize) ⟨.retFromException, childRegs, (s.thread parent).sstatus⟩

/-- `thread_exit` up to the call of `schedule`. -/
def threadExit (s : Machine) (base : Word) : Machine :=
  { s with runnable := s.runnable.erase s.getCurrent, pc := .threadExit base }

def killZombies (s : Machine) : Machine := { s with live := s.live ∩ s.runnable }

/-! ## Signals and system calls -/

/-- `check_pending_signals` if `do_trap` calls it, and the return of `do_trap`; `handler` is there
when a signal is due. -/
def checkPendingSignals (s : Machine) (regs : Word) (handler : Option Word) : Option Machine :=
  (s.frames regs).map fun r =>
    let s := match handler with
      | none => s
      | some va =>
        if r.sstatus.spp then s
        else
          let x :=
            Function.update (Function.update r.x ra 0x50000000#64) sp (0x50000000#64 + stackSize)
          { s with
            savedRegs := Function.update s.savedRegs s.getCurrent (some r)
            frames := store s.frames regs { r with x := x, epc := .user va } }
    { s with x := Function.update s.x sp regs, pc := .retFromException }

def sysSigreturn (s : Machine) (regs : Word) : Machine :=
  match s.savedRegs s.getCurrent with
  | none => s
  | some r =>
    { s with
      frames := store s.frames regs r
      savedRegs := Function.update s.savedRegs s.getCurrent none }

/-- The end of `handle_syscall`, with the value it stores in `a0` if it does, and `irq_disable`. -/
def endSyscall (s : Machine) (regs : Word) (result : Option Word) (skipEpcAdd : Bool) :
    Option Machine :=
  (s.frames regs).map fun r =>
    let x := match result with
      | none => r.x
      | some value => Function.update r.x a0 value
    let epc := if skipEpcAdd then r.epc else r.epc.next
    { s with frames := store s.frames regs { r with x := x, epc := epc }, pc :=
      .checkPendingSignals regs }.setSie
      false

end Machine

/-! ## Steps -/

inductive Event where
  | user (x : Reg → Word) (va : Word)
  | trap (cause : Cause)
  | compute (x : Reg → Word)
  | setSie (on : Bool)
  | advance
  | schedule (next : Word)
  | createUserProcess (task stack : Word)
  | threadCreate (task stack : Word)
  | killZombies
  | threadExit
  | sysStop (task : Word)
  | sysExec
  | sysFork (child stack : Word)
  | sysSigreturn
  | endSyscall (result : Option Word) (skipEpcAdd : Bool)
  | checkPendingSignals (handler : Option Word)

namespace Machine

/-- The stack pointer is not above the place and the stack of the running task not exceeded. -/
def Below (s : Machine) (a base : Word) : Prop :=
  a - s.stack s.dispatched ≤ base - s.stack s.dispatched

/-- The stack of the running task has room for one more frame. -/
def Room (s : Machine) : Prop := ptRegsSize ≤ s.x sp - s.stack s.dispatched

/-- What `allocate` returns for a new task and its stack. -/
structure Fresh (s : Machine) (task stack : Word) : Prop where
  task : task ∉ s.live
  top : stack + stackSize ≠ 0#64
  stack : ∀ other ∈ s.live, ∀ a, a - stack < stackSize → ¬ a - s.stack other < stackSize

/-- The position after a step that only moves on. -/
def advance (s : Machine) : Option Machine :=
  match s.pc with
  | .doTrap regs .external => some { s with pc := .runPreemptiveTasks regs }
  | .doTrap regs .ecall => some ({ s with pc := .handleSyscall regs }.setSie true)
  | .doTrap regs .pageFault => some { s with pc := .checkPendingSignals regs }
  | .doTrap regs .other => some ({ s with pc := .report regs }.setSie true)
  | .callback regs => some ({ s with pc := .runPreemptiveTasks regs }.setSie false)
  | .runPreemptiveTasks regs => some { s with pc := .checkPendingSignals regs }
  | .schedule sie caller => some ({ s with pc := caller }.setSie (s.sstatus.sie || sie))
  | .mvTp next ra => some { s with x := Function.update s.x tp next, pc := .switchRet ra }
  | .switchRet ra => some { s with pc := ra }
  | .retFromException => s.retFromException
  | .csrwSepc => s.csrwSepc
  | .csrwSstatus s2 => some (s.csrwSstatus s2)
  | .restore => s.sret
  | _ => none

/-- The positions that call `schedule`, with where it returns to. -/
def Calls (pc caller : Pc) : Prop :=
  (pc = caller ∧ ∃ base, pc = .thread base ∨ pc = .handleSyscall base ∨ pc = .threadExit base) ∨
    ∃ regs, pc = .doTrap regs .timer ∧ caller = .runPreemptiveTasks regs

/-- The positions that call `thread_exit`: system calls, page faults and threads. -/
def Exits (pc : Pc) (base : Word) : Prop :=
  pc = .handleSyscall base ∨ pc = .doTrap base .pageFault ∨ pc = .thread base

inductive Step (s : Machine) : Event → Machine → Prop
  | user {x : Reg → Word} {va va' : Word} : s.pc = .user va →
      Step s (.user x va') { s with x := x, pc := .user va' }
  | trap {va : Word} {cause : Cause} : s.pc = .user va →
      Step s (.trap cause) (s.handleException cause)
  | interrupt {cause : Cause} : s.pc.isUser = false → s.sstatus.sie = true →
      cause = .timer ∨ cause = .external →
      s.Room → Step s (.trap cause) (s.handleException cause)
  | pageFault {regs : Word} : s.pc = .handleSyscall regs → s.Room →
      Step s (.trap .pageFault) (s.handleException .pageFault)
  | compute {x : Reg → Word} {base : Word} : s.pc.base = some base →
      x tp = s.x tp → s.Below (x sp) base →
      Step s (.compute x) { s with x := x }
  | setSie {on : Bool} : s.pc.mayEnable = true → Step s (.setSie on) (s.setSie on)
  | advance {t : Machine} : s.advance = some t → Step s .advance t
  | startCallback {regs : Word} : s.pc = .runPreemptiveTasks regs →
      Step s (.setSie true) ({ s with pc := .callback regs }.setSie true)
  | schedule {caller : Pc} {next : Word} : Calls s.pc caller → next ∈ s.runnable →
      Step s (.schedule next) (s.schedule caller next)
  | createUserProcess {top task stack : Word} : s.pc = .thread top → s.Fresh task stack →
      Step s (.createUserProcess task stack) (s.createUserProcess task stack)
  | threadCreate {top task stack : Word} : s.pc = .thread top → s.Fresh task stack →
      Step s (.threadCreate task stack) (s.threadCreate task stack)
  | killZombies {top : Word} : s.pc = .thread top → Step s .killZombies s.killZombies
  | threadExit {base : Word} : Exits s.pc base → Step s .threadExit (s.threadExit base)
  | sysStop {regs task : Word} : s.pc = .handleSyscall regs → task ≠ s.getCurrent →
      Step s (.sysStop task) { s with runnable := s.runnable.erase task }
  | sysExec {regs : Word} : s.pc = .handleSyscall regs → Step s .sysExec (s.doExec s.getCurrent)
  | sysFork {regs child stack : Word} {t : Machine} : s.pc = .handleSyscall regs →
      s.Fresh child stack →
      s.sysFork regs child stack = some t → Step s (.sysFork child stack) t
  | sysSigreturn {regs : Word} : s.pc = .handleSyscall regs →
      Step s .sysSigreturn (s.sysSigreturn regs)
  | endSyscall {regs : Word} {result : Option Word} {skipEpcAdd : Bool} {t : Machine} :
      s.pc = .handleSyscall regs →
      s.endSyscall regs result skipEpcAdd = some t → Step s (.endSyscall result skipEpcAdd) t
  | checkPendingSignals {regs : Word} {handler : Option Word} {t : Machine} : s.pc =
      .checkPendingSignals regs →
      s.checkPendingSignals regs handler = some t → Step s (.checkPendingSignals handler) t

end Machine

end OscKernel.Model
