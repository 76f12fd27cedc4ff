import OscKernel.Lib.Histories
import OscKernel.Model.Exec
import OscKernel.Model.OpenFiles
import OscKernel.Model.Sched

/-! # Creating user processes

`sys_fork` with `fork_copy_page_table_cow`, and `create_user_process` with the part of `do_exec` for
a task whose table is still empty, with every call of `allocate` they make. The calls are numbered,
and each returns the word given for its number, which is zero where the allocator has nothing left
and else an address that no allocation in use has. A store through the null pointer that `allocate`
returned ends a call. The parent's entries and the counts are written as the copy goes on, so a
state in the middle of the loops shows what was done by then.
-/

namespace OscKernel.Model

open OscKernel.Lib

/-- What the allocations here are made for. -/
inductive KernelObject where
  | taskStruct
  | kernelStack
  | pageTable
  | fileHandle
  deriving DecidableEq

/-- `sizeof(struct task_struct)`. -/
def sizeofTaskStruct : ℕ := 1392
/-- `sizeof(struct file)`. -/
def sizeofFile : ℕ := 32

/-- `struct task_struct` without its queue links; the trap frame is that on the task's kernel
stack. -/
structure TaskStruct where
  threadRa : Word
  threadSp : Word
  threadSstatus : Word
  pid : BitVec 32
  state : TaskState
  pgd : Pgd
  kernelSp : Word
  userSp : Word
  stack : Word
  image : UserImage
  fds : Fin maxFd → Option Word
  cwd : Option VnodeId

/-- The place of `a0` in `struct pt_regs`. -/
def ptRegsA0 : Fin 35 := ⟨9, by decide⟩

/-- The image of a task after `memzero`. -/
def UserImage.zeroed : UserImage where
  regions := ⟨⟨[], 0#64, by decide⟩, 0#64⟩
  userStack := 0#64
  signals := ⟨fun _ => 0#64, 0#32, fun _ => 0#64, none⟩
  signalStack := 0#64

/-- A task after `memzero`. -/
def TaskStruct.zeroed : TaskStruct where
  threadRa := 0#64
  threadSp := 0#64
  threadSstatus := 0#64
  pid := 0#32
  state := .running
  pgd := ⟨0#64, fun _ => none⟩
  kernelSp := 0#64
  userSp := 0#64
  stack := 0#64
  image := .zeroed
  fds := fun _ => none
  cwd := none

/-- `src_pte[k] = pte`, where the tables on the path exist. -/
def Pgd.setPte (pgd : Pgd) (slot : Slot) (pte : Word) : Pgd :=
  { pgd with entry := Function.update pgd.entry slot.1 ((pgd.entry slot.1).map fun pmd =>
      { pmd with entry := Function.update pmd.entry slot.2.1 ((pmd.entry slot.2.1).map fun table =>
        { table with entry := Function.update table.entry slot.2.2 pte }) }) }

/-- `dst_pgd[i]` becomes a zeroed table. -/
def Pgd.setPmd (pgd : Pgd) (i : Fin 256) (newPmd : Word) : Pgd :=
  { pgd with entry := Function.update pgd.entry i (some ⟨newPmd, fun _ => none⟩) }

/-- `dst_pmd[j]` becomes a zeroed table. -/
def Pgd.setTable (pgd : Pgd) (i : Fin 256) (j : Fin 512) (newPte : Word) : Pgd :=
  { pgd with entry := Function.update pgd.entry i ((pgd.entry i).map fun pmd =>
      { pmd with entry := Function.update pmd.entry j (some ⟨newPte, fun _ => 0#64⟩) }) }

/-- The level-0 table that two indices lead to. -/
def Pgd.tableAt (pgd : Pgd) (i : Fin 256) (j : Fin 512) : Option PteTable :=
  (pgd.entry i).bind fun pmd => pmd.entry j

/-- What the two functions read and write. -/
structure Kernel where
  build : Build
  heap : History Word KernelObject
  /-- What the calls of `allocate` return. -/
  grant : ℕ → Word
  calls : ℕ
  pageRefCounts : Word → BitVec 8
  vfs : VfsHeap
  files : Word → Option File
  tasks : Word → TaskStruct
  current : Word
  runQueue : List Word
  nrThreads : BitVec 32
  activeUserPgd : Word
  memory : ByteMemory
  cpioBase : Word
  sstatus : Word
  retFromException : Word

/-- How a part of `sys_fork` ends. -/
inductive CopyEnd where
  | done (s : Kernel)
  | nullStore (s : Kernel)

/-- How `sys_fork` ends. -/
inductive ForkEnd where
  | returned (value : ℤ) (s : Kernel)
  | nullStore (s : Kernel)

namespace Kernel

/-! ## Allocation -/

/-- `allocate`; an address that is in use is not one that the allocator returns. -/
def allocate (s : Kernel) (size : ℕ) (purpose : KernelObject) : Option (Word × Kernel) :=
  let va := s.grant s.calls
  let s := { s with calls := s.calls + 1 }
  if va = 0#64 then some (0#64, s)
  else (s.heap.allocate va (Vm.region va size) purpose).map fun heap => (va, { s with heap })

def free (s : Kernel) (va : Word) : Kernel := { s with heap := s.heap.free va }

/-! ## Tasks -/

def setTask (s : Kernel) (task : Word) (value : TaskStruct) : Kernel :=
  { s with tasks := Function.update s.tasks task value }

def setPgd (s : Kernel) (task : Word) (pgd : Pgd) : Kernel :=
  s.setTask task { s.tasks task with pgd }

def setFd (s : Kernel) (task : Word) (fd : Fin maxFd) (file : Option Word) : Kernel :=
  s.setTask task { s.tasks task with fds := Function.update (s.tasks task).fds fd file }

def setFile (s : Kernel) (file : Word) (object : File) : Kernel :=
  { s with files := Function.update s.files file (some object) }

@[simp] theorem setFd_heap (s : Kernel) (task : Word) (fd : Fin maxFd) (file : Option Word) :
    (s.setFd task fd file).heap = s.heap := rfl
@[simp] theorem setFd_memory (s : Kernel) (task : Word) (fd : Fin maxFd) (file : Option Word) :
    (s.setFd task fd file).memory = s.memory := rfl
@[simp] theorem setFd_cpioBase (s : Kernel) (task : Word) (fd : Fin maxFd) (file : Option Word) :
    (s.setFd task fd file).cpioBase = s.cpioBase := rfl
@[simp] theorem setFile_files (s : Kernel) (file : Word) (object : File) :
    (s.setFile file object).files file = some object := Function.update_self _ _ _
@[simp] theorem setFile_heap (s : Kernel) (file : Word) (object : File) :
    (s.setFile file object).heap = s.heap := rfl
@[simp] theorem setFile_memory (s : Kernel) (file : Word) (object : File) :
    (s.setFile file object).memory = s.memory := rfl
@[simp] theorem setFile_cpioBase (s : Kernel) (file : Word) (object : File) :
    (s.setFile file object).cpioBase = s.cpioBase := rfl

/-- `enqueue(&run_queue, task)`, with the queue from its head on. -/
def enqueue (s : Kernel) (task : Word) : Kernel := { s with runQueue := s.runQueue ++ [task] }

/-! ## Copying the page tables -/

def incrementPageRef (s : Kernel) (pa : Word) : Kernel :=
  let pageIdx := s.build.pageIdx pa
  if pageIdx < s.build.numPages then
    { s with pageRefCounts :=
      Function.update s.pageRefCounts pageIdx (s.pageRefCounts pageIdx + 1#8) }
  else s

/-- A loop that a store through a null pointer ends. -/
def loop {ι : Type} (body : Kernel → ι → Option CopyEnd) (s : Kernel) : List ι → Option CopyEnd
  | [] => some (.done s)
  | i :: rest => (body s i).bind fun
    | .done s => loop body s rest
    | .nullStore s => some (.nullStore s)

/-- One level-0 entry. -/
def copyEntry (s : Kernel) (parent child : Word) (slot : Slot) : Kernel :=
  let pteVal := (s.tasks parent).pgd.entryAt slot
  if present pteVal then
    let s := if writable pteVal then
      s.setPgd parent ((s.tasks parent).pgd.setPte slot (Vm.share pteVal))
      else s
    let s := s.incrementPageRef (ptePa (Vm.share pteVal))
    s.setPgd child ((s.tasks child).pgd.setPte slot (Vm.share pteVal))
  else s

/-- The table of level 1 that the child may lack. -/
def newPmd (s : Kernel) (child : Word) (i : Fin 256) : Option CopyEnd :=
  match (s.tasks child).pgd.entry i with
  | some _ => some (.done s)
  | none => (s.allocate 4096 .pageTable).map fun (newPmd, s) =>
    if newPmd = 0#64 then .nullStore s
    else .done (s.setPgd child ((s.tasks child).pgd.setPmd i newPmd))

/-- The table of level 0 that the child may lack. -/
def newPte (s : Kernel) (child : Word) (i : Fin 256) (j : Fin 512) : Option CopyEnd :=
  match (s.tasks child).pgd.tableAt i j with
  | some _ => some (.done s)
  | none => (s.allocate 4096 .pageTable).map fun (newPte, s) =>
    if newPte = 0#64 then .nullStore s
    else .done (s.setPgd child ((s.tasks child).pgd.setTable i j newPte))

def copyTable (s : Kernel) (parent child : Word) (i : Fin 256) (j : Fin 512) : Option CopyEnd :=
  match (s.tasks parent).pgd.tableAt i j with
  | none => some (.done s)
  | some _ => (s.newPte child i j).map fun
    | .done s => .done ((List.finRange 512).foldl (fun s k => s.copyEntry parent child (i, j, k)) s)
    | .nullStore s => .nullStore s

def copyPmd (s : Kernel) (parent child : Word) (i : Fin 256) : Option CopyEnd :=
  match (s.tasks parent).pgd.entry i with
  | none => some (.done s)
  | some _ => (s.newPmd child i).bind fun
    | .done s => s.loop (fun s j => s.copyTable parent child i j) (List.finRange 512)
    | .nullStore s => some (.nullStore s)

/-- `fork_copy_page_table_cow`. -/
def forkCopyPageTableCow (s : Kernel) (parent child : Word) : Option CopyEnd :=
  s.loop (fun s i => s.copyPmd parent child i) (List.finRange 256)

/-! ## Fork -/

/-- One descriptor; a handle that is gone gives no result. -/
def shareFile (s : Kernel) (parent child : Word) (fd : Fin maxFd) : Option Kernel :=
  match (s.tasks parent).fds fd with
  | none => some (s.setFd child fd none)
  | some file =>
    (s.files file).map fun object =>
      (s.setFd child fd (some file)).setFile file { object with refCount := object.refCount + 1 }

/-- The frame that the child returns through. -/
def childRegs (regs : Vm.PtRegs) (child userSp : Word) : Vm.PtRegs :=
  let childRegs := Function.update regs Vm.PtRegs.sp userSp
  let childRegs := Function.update childRegs ptRegsA0 0#64
  let childRegs := Function.update childRegs Vm.PtRegs.tp child
  Function.update childRegs Vm.PtRegs.epc (regs Vm.PtRegs.epc + 4#64)

/-- The child before its tables are copied: a zeroed task with the parent's stack, its handlers,
regions and program. -/
def child (parent : TaskStruct) (stack pgd : Word) (pid : BitVec 32) : TaskStruct :=
  { TaskStruct.zeroed with
    pid
    state := .running
    pgd := ⟨pgd, fun _ => none⟩
    stack
    userSp := parent.image.signals.regs Vm.PtRegs.sp
    image := { UserImage.zeroed with
      regions := parent.image.regions
      signals := ⟨parent.image.signals.sigHandlers, 0#32, parent.image.signals.regs, none⟩ } }

/-- The end of `sys_fork`, from the working directory on; `regs` is the address of the parent's
frame. -/
def finishFork (s : Kernel) (parent child regs : Word) : Option ForkEnd :=
  let s := s.setTask child { s.tasks child with cwd := (s.tasks parent).cwd }
  ((List.finRange maxFd).foldlM (fun (s : Kernel) fd => s.shareFile parent child fd) s).map fun s =>
    let new := s.tasks child
    let frame := childRegs new.image.signals.regs child new.userSp
    let s := s.setTask child { new with
      image := { new.image with signals := { new.image.signals with regs := frame } }
      kernelSp := new.stack + stackSize
      threadRa := s.retFromException
      threadSp := new.stack + (regs - (s.tasks parent).stack)
      threadSstatus := (s.tasks parent).threadSstatus }
    .returned new.pid.toInt (s.enqueue child)

/-- `sys_fork` of the current task. -/
def sysFork (s : Kernel) (regs : Word) : Option ForkEnd :=
  let parent := s.current
  (s.allocate sizeofTaskStruct .taskStruct).bind fun (newTask, s) =>
    if newTask = 0#64 then some (.returned (-1) s)
    else
      let s := s.setTask newTask .zeroed
      (s.allocate stackSize.toNat .kernelStack).bind fun (stack, s) =>
        -- the parent's stack is copied to the new one without a test
        if stack = 0#64 then some (.nullStore s)
        else
          (s.allocate 4096 .pageTable).bind fun (pgd, s) =>
            if pgd = 0#64 then some (.returned (-1) ((s.free stack).free newTask))
            else
              let s := s.setTask newTask (child (s.tasks parent) stack pgd s.nrThreads)
              let s := { s with nrThreads := s.nrThreads + 1#32 }
              (s.forkCopyPageTableCow parent newTask).bind fun
                | .done s => s.finishFork parent newTask regs
                | .nullStore s => some (.nullStore s)

/-! ## New processes -/

/-- `(curr && curr->cwd) ? curr->cwd : rootfs->root`. -/
def base (s : Kernel) : VnodeId := (s.tasks s.current).cwd.getD s.vfs.root

/-- `vfs_open("/dev/uart", 0, &uart_file)`, whose only allocation is that of the handle; without a
result the caller stops in a loop of its own. -/
def openUart (s : Kernel) (fuel : ℕ) : Option (Word × Kernel) :=
  (s.allocate sizeofFile .fileHandle).bind fun (uartFile, s) =>
    (vfsOpen s.vfs fuel s.base devUart 0#32 []
      ⟨true, true, true, true, decide (uartFile ≠ 0#64)⟩).bind fun
      | (.handle object, vfs) => some (uartFile, { s with vfs }.setFile uartFile object)
      | (.error _, _) => none

/-- The three descriptors of a new process, with two more references than `vfs_open` counts. -/
def installUart (s : Kernel) (task uartFile : Word) : Option Kernel :=
  let s := s.setFd task ⟨0, by decide⟩ (some uartFile)
  let s := s.setFd task ⟨1, by decide⟩ (some uartFile)
  (s.files uartFile).map fun object =>
    let s := s.setFile uartFile { object with refCount := object.refCount + 1 }
    let s := s.setFd task ⟨2, by decide⟩ (some uartFile)
    s.setFile uartFile { object with refCount := object.refCount + 1 + 1 }

/-- `do_exec` for a task without a mapping, which `clear_user_space_mappings` leaves as it is. -/
def doExec (s : Kernel) (task : Word) (filename : List UInt8) (fuel : ℕ) : Option (ℤ × Kernel) :=
  match found : cpioGetFile s.memory s.cpioBase filename fuel with
  | none => none
  | some none => some (-1, s)
  | some (some (codeStart, size)) =>
    let image := (s.tasks task).image
    some (0, s.setTask task { s.tasks task with image := { image with
      regions := image.regions.load codeStart size (cpioGetFile_size found)
      userStack := 0#64
      signals := { image.signals with regs := execRegs task s.sstatus } } })

/-- The end of `create_user_process`, which makes the task ready. -/
def ready (s : Kernel) (task : Word) : Kernel :=
  (s.setTask task { s.tasks task with
    threadRa := s.retFromException
    threadSp := (s.tasks task).kernelSp - BitVec.ofNat 64 Vm.sizeofPtRegs
    threadSstatus := s.sstatus }).enqueue task

/-- `create_user_process`. -/
def createUserProcess (s : Kernel) (filename : List UInt8) (fuel : ℕ) : Option (Word × Kernel) :=
  (s.allocate sizeofTaskStruct .taskStruct).bind fun (task, s) =>
    if task = 0#64 then some (0#64, s)
    else
      let s := s.setTask task { TaskStruct.zeroed with pid := s.nrThreads }
      let s := { s with nrThreads := s.nrThreads + 1#32 }
      (s.allocate stackSize.toNat .kernelStack).bind fun (stack, s) =>
        if stack = 0#64 then some (0#64, s.free task)
        else
          let s := s.setTask task { s.tasks task with stack, kernelSp := stack + stackSize }
          (s.allocate 4096 .pageTable).bind fun (pgd, s) =>
            if pgd = 0#64 then some (0#64, (s.free stack).free task)
            else
              let s := { s.setPgd task ⟨pgd, fun _ => none⟩ with activeUserPgd := pgd }
              (s.openUart fuel).bind fun (uartFile, s) =>
                (s.installUart task uartFile).bind fun s =>
                  let s := s.setTask task { s.tasks task with cwd := some s.vfs.root }
                  (s.doExec task filename fuel).map fun (ret, s) =>
                    if ret < 0 then (0#64, ((s.free pgd).free stack).free task)
                    else (task, s.ready task)

end Kernel

end OscKernel.Model
