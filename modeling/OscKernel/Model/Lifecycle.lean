import OscKernel.Model.TaskCreation

/-! # The life of user processes

What processes take from the allocator and give back, over all operations together: their pages and
tables, which paging.c counts, their `task_struct`s and kernel stacks, and the handles of their open
files. The parts are `Vm` and `OpenFiles`; this module adds the allocations that the latter leaves
out, where an object is named by its address as there. A call on files goes on one access at a time,
every other event is one step, and `allocate` does not fail.

A task is a process if its table is not `kernel_pgd`, so if `Vm` knows it. Processes run in user
mode between their calls, where they store and fault.
-/

namespace OscKernel.Model

open OscKernel.Lib

structure Lifecycle where
  vm : Vm
  regions : ℕ → UserRegions
  files : OpenFiles
  /-- The `task_struct`s, kernel stacks and file handles. -/
  objects : Allocations ℕ KernelObject
  stack : ℕ → ℕ

/-- The size of a file has 32 bits. -/
theorem fileSize_lt (size : BitVec 32) : (size.setWidth 64).toNat < 2 ^ 32 := by
  rw [BitVec.toNat_setWidth]
  exact lt_of_le_of_lt (Nat.mod_le _ _) size.isLt

namespace Lifecycle

def allocate (s : Lifecycle) (address : ℕ) (purpose : KernelObject) : Option Lifecycle :=
  (s.objects.allocate address [address] purpose).map fun objects => { s with objects }

def free (s : Lifecycle) (address : ℕ) : Lifecycle := { s with objects := s.objects.free address }

/-- The `task_struct` and the kernel stack of a new process. -/
def newTask (s : Lifecycle) (task stack : ℕ) : Option Lifecycle :=
  (s.allocate task .taskStruct).bind fun s =>
    (s.allocate stack .kernelStack).map fun s =>
      { s with stack := Function.update s.stack task stack }

/-! ## Beginnings -/

/-- `create_user_process` for a file of the archive, up to its call of `vfs_open`. -/
def createUserProcess (s : Lifecycle) (task child stack : ℕ)
    (pgd codeStart : Word) (size : BitVec 32) :
    Option Lifecycle :=
  (s.newTask child stack).bind fun s =>
    (s.vm.createUserProcess child pgd).map fun vm => { s with
      vm
      regions := Function.update s.regions child
        (UserImage.zeroed.regions.load codeStart (size.setWidth 64) (fileSize_lt size))
      files := s.files.createUserProcess task child }

/-- `sys_fork` up to its loop over the descriptors. -/
def sysFork (s : Lifecycle) (task child stack : ℕ) (pages : Vm.ForkPages) : Option Lifecycle :=
  (s.newTask child stack).bind fun s =>
    (s.vm.sysFork task child pages).map fun vm => { s with
      vm
      regions := Function.update s.regions child (s.regions task)
      files := s.files.sysFork task child }

/-! ## Images -/

/-- `sys_exec` of a file of the archive. -/
def sysExec (s : Lifecycle) (task : ℕ) (codeStart : Word) (size : BitVec 32) : Lifecycle := { s with
  vm := s.vm.clearUserSpaceMappings task
  regions := Function.update s.regions task
    ((s.regions task).load codeStart (size.setWidth 64) (fileSize_lt size)) }

/-- `sys_mmap`. -/
def sysMmap (s : Lifecycle) (task : ℕ) (addr length : Word) (prot flags : BitVec 32)
    (allocate : ℕ → Option Word) (tables : Word → Word × Word) : Option Lifecycle :=
  let called := Model.sysMmap (s.regions task).memory addr length prot flags allocate
  (s.vm.populate task called.2.2 tables).map fun vm => { s with
    vm
    regions := Function.update s.regions task { s.regions task with memory := called.2.1 } }

/-- `page_fault_handler`. -/
def pageFault (s : Lifecycle) (task : ℕ) (faultAddr : Word)
    (cause : FaultCause) (pages : FaultPages) :
    Option Lifecycle :=
  (s.vm.pageFaultHandler task (s.regions task) faultAddr cause pages).map fun
    | .returned vm => { s with vm }
    | .threadExit => { s with files := s.files.exit task }

/-- `sys_stop` of a task that is not the caller. -/
def sysStop (s : Lifecycle) (task target : ℕ) : Lifecycle :=
  if target ∈ s.files.runnable ∧ target ≠ task then { s with files := s.files.exit target } else s

/-- `sys_kill`, which stops a task without a handler. -/
def sysKill (s : Lifecycle) (task target : ℕ) : Lifecycle :=
  if target ∈ s.files.runnable then
    if s.vm.sigHandler target ≠ 0#64 then { s with vm := s.vm.sysKill target }
    else s.sysStop task target
  else s

/-! ## Files -/

/-- The next access of a task inside a call on files, with the handle that `vfs_open` makes and
`vfs_close` frees. -/
def resume (s : Lifecycle) (task fuel : ℕ) (behind : List UInt8) (grants : Grants)
    (file : ℕ) : Option Lifecycle :=
  (s.files.resume task fuel behind grants file).bind fun files =>
    match s.files.pc task with
    | .opening .. | .starting _ =>
      if (s.files.files file).isNone ∧ (files.files file).isSome then
        { s with files }.allocate file .fileHandle
      else some { s with files }
    | .freeing _ closed => some ({ s with files }.free closed)
    | _ => some { s with files }

/-! ## The end -/

/-- What `kill_zombies` does with one descriptor. -/
def closeSlot (s : Lifecycle) (task : ℕ) (fd : Fin maxFd) : Option Lifecycle :=
  (s.files.closeSlot task fd).map fun files =>
    match s.files.fds task fd with
    | none => { s with files }
    | some file =>
      if (files.files file).isNone then { s with files }.free file else { s with files }

/-- `free_user_page_table`, unless the table is `kernel_pgd`. -/
def freeTables (s : Lifecycle) (task : ℕ) : Lifecycle :=
  if task ∈ s.vm.live then { s with vm := s.vm.freeUserPageTable task } else s

/-- What `kill_zombies` does with one task. -/
def reclaim (s : Lifecycle) (task : ℕ) : Option Lifecycle :=
  ((List.finRange maxFd).foldlM (fun (s : Lifecycle) fd => s.closeSlot task fd) s).map fun s =>
    let s := { s with files := { s.files with cwd := Function.update s.files.cwd task none } }
    let s := ((s.freeTables task).free (s.stack task)).free task
    { s with files := { s.files with live := s.files.live.erase task } }

def killZombies (s : Lifecycle) : Option Lifecycle :=
  s.files.zombies.foldlM reclaim { s with files := { s.files with zombies := [] } }

/-! ## Events -/

inductive Event where
  | createUserProcess (task child stack : ℕ) (pgd codeStart : Word) (size : BitVec 32)
  | sysFork (task child stack : ℕ) (pages : Vm.ForkPages)
  | sysExec (task : ℕ) (codeStart : Word) (size : BitVec 32)
  | sysMmap (task : ℕ) (addr length : Word) (prot flags : BitVec 32) (allocate : ℕ → Option Word)
      (tables : Word → Word × Word)
  | pageFault (task : ℕ) (faultAddr : Word) (cause : FaultCause) (pages : FaultPages)
  | store (task : ℕ) (slot : Slot) (offset : Fin 4096) (value : BitVec 8)
  | sysSignal (task : ℕ) (handler : Word)
  | sysKill (task target : ℕ)
  | checkPendingSignals (task : ℕ) (pages : Vm.SignalPages)
  | sysSigreturn (task : ℕ)
  | sysOpen (task : ℕ) (pathname : List UInt8) (flags : BitVec 32)
  | sysClose (task : ℕ) (fd : BitVec 32)
  | resume (task fuel : ℕ) (behind : List UInt8) (grants : Grants) (file : ℕ)
  | threadExit (task : ℕ)
  | sysStop (task target : ℕ)
  | killZombies

/-- The task is a process in user mode or at the beginning of a call. -/
def InUser (s : Lifecycle) (task : ℕ) : Prop := task ∈ s.vm.live ∧ s.files.Ready task

instance (s : Lifecycle) (task : ℕ) : Decidable (s.InUser task) :=
  inferInstanceAs (Decidable (_ ∧ _))

/-- An address of the user half. -/
def userHalf (va : Word) : Bool := va.toNat < 2 ^ 38

/-- One step, in the states in which it can be taken. Kernel threads create processes, all other
calls come from processes, and a task can exit or be stopped while it is inside a call on files. -/
def step (s : Lifecycle) : Event → Option Lifecycle
  | .createUserProcess task child stack pgd codeStart size =>
    if s.files.Ready task ∧ child ∉ s.files.live then
      s.createUserProcess task child stack pgd codeStart size
    else none
  | .sysFork task child stack pages =>
    if s.InUser task ∧ child ∉ s.files.live then s.sysFork task child stack pages else none
  | .sysExec task codeStart size =>
    if s.InUser task then some (s.sysExec task codeStart size) else none
  | .sysMmap task addr length prot flags allocate tables =>
    if s.InUser task then s.sysMmap task addr length prot flags allocate tables else none
  | .pageFault task faultAddr cause pages =>
    if s.InUser task ∧ userHalf faultAddr then s.pageFault task faultAddr cause pages else none
  | .store task slot offset value =>
    if s.InUser task then (s.vm.writeByte task slot offset value).map fun vm => { s with vm }
    else none
  | .sysSignal task handler =>
    if s.InUser task then some { s with vm := s.vm.sysSignal task handler } else none
  | .sysKill task target => if s.InUser task then some (s.sysKill task target) else none
  | .checkPendingSignals task pages =>
    if s.InUser task then (s.vm.checkPendingSignals task pages).map fun vm => { s with vm }
    else none
  | .sysSigreturn task =>
    if s.InUser task then some { s with vm := s.vm.sysSigreturn task } else none
  | .sysOpen task pathname flags =>
    if s.InUser task then some { s with files := s.files.sysOpen task pathname flags } else none
  | .sysClose task fd =>
    if s.InUser task then some { s with files := s.files.sysClose task fd } else none
  | .resume task fuel behind grants file =>
    if task ∈ s.files.runnable then s.resume task fuel behind grants file else none
  | .threadExit task =>
    if task ∈ s.files.runnable then some { s with files := s.files.exit task } else none
  | .sysStop task target => if s.InUser task then some (s.sysStop task target) else none
  | .killZombies => s.killZombies

end Lifecycle

end OscKernel.Model
