import Mathlib.Data.Finset.Card
import OscKernel.Model.VfsUpdate

/-! # The open files of the tasks

The file part of syscall.c and sched.c. A system call runs with interrupts enabled, so the timer can
switch to another task between any two of its accesses to memory that tasks share: each read and
write of a `ref_count`, each write of a descriptor slot, each `vfs_open` and each `free` is one
step, and `pc` says which one a task takes next. `kill_zombies` runs with interrupts disabled and is
one step.

A `task_struct` and a `struct file` are named by their addresses, and a file that has been freed is
`none`; an access through its address has no result. Allocation hands out an address that is not in
use.
-/

namespace OscKernel.Model

/-- `MAX_FD` of vfs.h. -/
def maxFd : ℕ := 16

/-- `"/dev/uart"`. -/
def devUart : List UInt8 := [47, 100, 101, 118, 47, 117, 97, 114, 116]

/-- Whose slots a new task's files come from. -/
inductive Sharer where
  | fork
  | create
deriving DecidableEq

/-- What a task does next. -/
inductive FilePc where
  | idle
  /-- `vfs_open` for the slot that was free. -/
  | opening (fd : Fin maxFd) (pathname : List UInt8) (flags : BitVec 32)
  /-- `curr->files.fds[fd] = target_file`. -/
  | installing (fd : Fin maxFd) (file : ℕ)
  /-- The read in `file->ref_count--`. -/
  | closing (fd : Fin maxFd) (file : ℕ)
  /-- The write in `file->ref_count--`. -/
  | decrementing (fd : Fin maxFd) (file : ℕ) (loaded : ℤ)
  /-- `file->ref_count == 0`. -/
  | testing (fd : Fin maxFd) (file : ℕ)
  | freeing (fd : Fin maxFd) (file : ℕ)
  /-- `curr->files.fds[fd] = NULL`. -/
  | clearing (fd : Fin maxFd) (file : ℕ)
  /-- The head of the loop of `sys_fork`. -/
  | copying (child i : ℕ)
  /-- `vfs_open` of `create_user_process`. -/
  | starting (child : ℕ)
  /-- `task->files.fds[i] = uart_file`, for `i` up to 2. -/
  | seeding (child i file : ℕ)
  /-- The read in `ref_count++`. -/
  | sharing (sharer : Sharer) (child i file : ℕ)
  /-- The write in `ref_count++`. -/
  | incrementing (sharer : Sharer) (child i file : ℕ) (loaded : ℤ)
deriving DecidableEq

/-- What follows `ref_count++`. -/
def Sharer.next (child i file : ℕ) : Sharer → FilePc
  | .fork => .copying child (i + 1)
  | .create => .seeding child (i + 1) file

/-- The file objects and the descriptor tables; `live` are the allocated `task_struct`s. -/
structure OpenFiles where
  heap : VfsHeap
  files : ℕ → Option File
  fds : ℕ → Fin maxFd → Option ℕ
  cwd : ℕ → Option VnodeId
  live : Finset ℕ
  runnable : Finset ℕ
  zombies : List ℕ
  pc : ℕ → FilePc
  /-- What the last call of a task returned. -/
  result : ℕ → ℤ

namespace OpenFiles

def setFd (s : OpenFiles) (task : ℕ) (fd : Fin maxFd) (file : Option ℕ) : OpenFiles :=
  { s with fds := Function.update s.fds task (Function.update (s.fds task) fd file) }

def setFile (s : OpenFiles) (file : ℕ) (object : Option File) : OpenFiles :=
  { s with files := Function.update s.files file object }

def goto (s : OpenFiles) (task : ℕ) (pc : FilePc) : OpenFiles :=
  { s with pc := Function.update s.pc task pc }

def returns (s : OpenFiles) (task : ℕ) (value : ℤ) : OpenFiles :=
  { s with result := Function.update s.result task value }.goto task .idle

/-- `(curr && curr->cwd) ? curr->cwd : rootfs->root`. -/
def base (s : OpenFiles) (task : ℕ) : VnodeId := (s.cwd task).getD s.heap.root

/-- A zeroed `task_struct`. -/
def addTask (s : OpenFiles) (task : ℕ) (cwd : Option VnodeId) : OpenFiles :=
  { s with
    live := insert task s.live
    fds := Function.update s.fds task fun _ => none
    cwd := Function.update s.cwd task cwd }

def enqueue (s : OpenFiles) (task : ℕ) : OpenFiles := { s with runnable := insert task s.runnable }

/-! ## The beginnings of the calls -/

/-- `sys_open` up to `vfs_open`. -/
def sysOpen (s : OpenFiles) (task : ℕ) (pathname : List UInt8) (flags : BitVec 32) : OpenFiles :=
  match (List.finRange maxFd).find? fun fd => (s.fds task fd).isNone with
  | none => s.returns task (-1)
  | some fd => s.goto task (.opening fd pathname flags)

/-- `sys_close` up to `vfs_close`. -/
def sysClose (s : OpenFiles) (task : ℕ) (fd : BitVec 32) : OpenFiles :=
  if h : 0 ≤ fd.toInt ∧ fd.toNat < maxFd then
    match s.fds task ⟨fd.toNat, h.2⟩ with
    | none => s.returns task (-1)
    | some file => s.goto task (.closing ⟨fd.toNat, h.2⟩ file)
  else s.returns task (-1)

/-- `sys_fork` up to its loop over the descriptors. -/
def sysFork (s : OpenFiles) (task child : ℕ) : OpenFiles :=
  (s.addTask child (s.cwd task)).goto task (.copying child 0)

/-- `create_user_process` up to `vfs_open`. -/
def createUserProcess (s : OpenFiles) (task child : ℕ) : OpenFiles :=
  (s.addTask child none).goto task (.starting child)

/-! ## The next access -/

/-- A call of `vfs_open` by a task, with the address of the handle. -/
def opens (s : OpenFiles) (task : ℕ) (pathname : List UInt8) (flags : BitVec 32) (fuel : ℕ)
    (behind : List UInt8) (grants : Grants) (file : ℕ) : Option (ℤ × OpenFiles) :=
  (vfsOpen s.heap fuel (s.base task) pathname flags behind grants).bind fun
    | (.error code, heap) => some (code, { s with heap })
    | (.handle object, heap) =>
      if (s.files file).isNone then some (0, { s with heap }.setFile file (some object)) else none

/-- The next access of a task; the last four arguments are those of `vfs_open`. -/
def resume (s : OpenFiles) (task fuel : ℕ) (behind : List UInt8) (grants : Grants)
    (file : ℕ) : Option OpenFiles :=
  match s.pc task with
  | .idle => none
  | .opening fd pathname flags =>
    (s.opens task pathname flags fuel behind grants file).map fun (code, s) =>
      if code = 0 then s.goto task (.installing fd file) else s.returns task code
  | .installing fd file => some ((s.setFd task fd (some file)).returns task fd)
  | .closing fd file => (s.files file).map fun object =>
    s.goto task (.decrementing fd file object.refCount)
  | .decrementing fd file loaded =>
    (s.files file).map fun object =>
      (s.setFile file (some { object with refCount := loaded - 1 })).goto task (.testing fd file)
  | .testing fd file =>
    (s.files file).map fun object =>
      s.goto task (if object.refCount = 0 then .freeing fd file else .clearing fd file)
  | .freeing fd file => (s.files file).map fun _ =>
    (s.setFile file none).goto task (.clearing fd file)
  | .clearing fd _ => some ((s.setFd task fd none).returns task 0)
  | .copying child i =>
    if h : i < maxFd then
      match s.fds task ⟨i, h⟩ with
      | some file =>
        some ((s.setFd child ⟨i, h⟩ (some file)).goto task (.sharing .fork child i file))
      | none => some ((s.setFd child ⟨i, h⟩ none).goto task (.copying child (i + 1)))
    else some ((s.enqueue child).goto task .idle)
  | .starting child =>
    -- without the console the kernel stops in a loop of its own
    (s.opens task devUart 0#32 fuel behind grants file).bind fun (code, s) =>
      if code = 0 then some (s.goto task (.seeding child 0 file)) else none
  | .seeding child i file =>
    if h : i < 3 then
      let s := s.setFd child ⟨i, h.trans (by decide)⟩ (some file)
      some (s.goto task (if i = 0 then .seeding child 1 file else .sharing .create child i file))
    else
      some (({ s with cwd := Function.update s.cwd child (some s.heap.root) }.enqueue child).goto
        task .idle)
  | .sharing sharer child i file =>
    (s.files file).map fun object => s.goto task (.incrementing sharer child i file object.refCount)
  | .incrementing sharer child i file loaded =>
    (s.files file).map fun object =>
      (s.setFile file (some { object with refCount := loaded + 1 })).goto task
        (sharer.next child i file)

/-! ## The end of a task -/

/-- `thread_exit`. -/
def exit (s : OpenFiles) (task : ℕ) : OpenFiles :=
  { s with runnable := s.runnable.erase task, zombies := task :: s.zombies }

/-- What `kill_zombies` does with one descriptor. -/
def closeSlot (s : OpenFiles) (task : ℕ) (fd : Fin maxFd) : Option OpenFiles :=
  match s.fds task fd with
  | none => some s
  | some file => (s.files file).map fun object =>
    (s.setFile file (vfsClose object)).setFd task fd none

/-- What `kill_zombies` does with one task. -/
def reclaim (s : OpenFiles) (task : ℕ) : Option OpenFiles :=
  ((List.finRange maxFd).foldlM (fun s fd => closeSlot s task fd) s).map fun s =>
    { s with cwd := Function.update s.cwd task none, live := s.live.erase task }

def killZombies (s : OpenFiles) : Option OpenFiles :=
  s.zombies.foldlM reclaim { s with zombies := [] }

/-! ## Events -/

inductive Event where
  | sysOpen (task : ℕ) (pathname : List UInt8) (flags : BitVec 32)
  | sysClose (task : ℕ) (fd : BitVec 32)
  | sysFork (task child : ℕ)
  | createUserProcess (task child : ℕ)
  | resume (task fuel : ℕ) (behind : List UInt8) (grants : Grants) (file : ℕ)
  | exit (task : ℕ)
  | killZombies

/-- The task can run and is not inside a file operation. -/
def Ready (s : OpenFiles) (task : ℕ) : Prop := task ∈ s.runnable ∧ s.pc task = .idle

instance (s : OpenFiles) (task : ℕ) : Decidable (s.Ready task) :=
  inferInstanceAs (Decidable (_ ∧ _))

/-- One step, in the states in which it can be taken. -/
def step (s : OpenFiles) : Event → Option OpenFiles
  | .sysOpen task pathname flags =>
    if s.Ready task then some (s.sysOpen task pathname flags) else none
  | .sysClose task fd => if s.Ready task then some (s.sysClose task fd) else none
  | .sysFork task child =>
    if s.Ready task ∧ child ∉ s.live then some (s.sysFork task child) else none
  | .createUserProcess task child =>
    if s.Ready task ∧ child ∉ s.live then some (s.createUserProcess task child) else none
  | .resume task fuel behind grants file =>
    if task ∈ s.runnable then s.resume task fuel behind grants file else none
  | .exit task => if s.Ready task then some (s.exit task) else none
  | .killZombies => s.killZombies

/-- The kernel threads of `start_kernel`, which have no open files. -/
def boot (heap : VfsHeap) (threads : Finset ℕ) : OpenFiles where
  heap
  files := fun _ => none
  fds := fun _ _ => none
  cwd := fun _ => some heap.root
  live := threads
  runnable := threads
  zombies := []
  pc := fun _ => .idle
  result := fun _ => 0

end OpenFiles

end OscKernel.Model
