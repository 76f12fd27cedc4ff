import OscKernel.Model.Devfs
import OscKernel.Model.OpenFiles
import OscKernel.Model.Ramfs

/-! # The system calls on files

`sys_read`, `sys_write` and `sys_lseek64` on the descriptors of `OpenFiles`, with `sys_mkdir`,
`sys_mount` and `sys_chdir`. Each of them is one step, while `sys_open`, `sys_close` and the calls
that share or drop handles go on one access at a time as they do there. What `devfs_uart_read` waits
for is an argument, and what is written to the serial port leaves this state.
-/

namespace OscKernel.Model

structure FileSystem where
  files : OpenFiles
  /-- The framebuffer. -/
  frame : ℕ → UInt8
  /-- What the last `sys_read` of a task delivered. -/
  buffer : ℕ → List UInt8

/-- The node of a vnode is written. -/
def VfsHeap.setNode (fs : VfsHeap) (vnode : VnodeId) (node : FsNode) : VfsHeap :=
  { fs with nodes := Function.update fs.nodes (fs.vnodes vnode).internal node }

/-- `curr->files.fds[fd]`, for a valid descriptor. -/
def OpenFiles.handle (s : OpenFiles) (task : ℕ) (fd : BitVec 32) : Option ℕ :=
  if 0 ≤ fd.toInt then
    if h : fd.toNat < maxFd then s.fds task ⟨fd.toNat, h⟩ else none
  else none

namespace FileSystem

/-- `devfs_uart_read`, for what `uart_getc` returns. -/
def devfsUartRead (file : File) (received : List UInt8) (len : ℕ) :
    Option (ℤ × List UInt8 × File) :=
  if received.length = len then some (toInt32 len, received, file) else none

/-- `sys_read`. -/
def sysRead (s : FileSystem) (task : ℕ) (fd : BitVec 32) (len : BitVec 64) (received : List UInt8) :
    Option FileSystem :=
  match s.files.handle task fd with
  | none =>
    some { s with files := s.files.returns task (-1), buffer := Function.update s.buffer task [] }
  | some address =>
    (s.files.files address).bind fun file =>
      ((vfsRead s.files.heap.toVfs file len.toNat).or (devfsUartRead file received len.toNat)).map
        fun (count, bytes, file) => { s with
          files := (s.files.setFile address (some file)).returns task count
          buffer := Function.update s.buffer task bytes }

/-- `vfs_write`: the returned value, the tables, the framebuffer and the moved handle. -/
def vfsWrite (fs : VfsHeap) (frame : ℕ → UInt8) (file : File) (buf : ℕ → UInt8) (len : ℕ) :
    ℤ × VfsHeap × (ℕ → UInt8) × File :=
  match file.fOps with
  | none | some .ramfs => (-1, fs, frame, file)
  | some .tmpfs =>
    let (count, node, file') := tmpfsWrite (fs.nodes (fs.vnodes file.vnode).internal) file buf len
    (count, fs.setNode file.vnode node, frame, file')
  | some .devfsUart => (toInt32 len, fs, frame, file)
  | some .devfsFb =>
    let (count, frame, file) := devfsFbWrite frame file buf len
    (count, fs, frame, file)

/-- `sys_write`. -/
def sysWrite (s : FileSystem) (task : ℕ) (fd : BitVec 32) (buf : ℕ → UInt8)
    (len : BitVec 64) : Option FileSystem :=
  match s.files.handle task fd with
  | none => some { s with files := s.files.returns task (-1) }
  | some address =>
    (s.files.files address).map fun file =>
      let (count, heap, frame, file) := vfsWrite s.files.heap s.frame file buf len.toNat
      { s with files :=
        ({ s.files with heap }.setFile address (some file)).returns task count, frame }

/-- `vfs_lseek64`; only the framebuffer has a position that can be set. -/
def vfsLseek64 (file : File) (offset : BitVec 64) (whence : ℤ) : ℤ × File :=
  match file.fOps with
  | some .devfsFb => devfsFbLseek64 file offset whence
  | _ => (-1, file)

/-- `sys_lseek64`. -/
def sysLseek64 (s : FileSystem) (task : ℕ) (fd : BitVec 32) (offset : BitVec 64)
    (whence : ℤ) : Option FileSystem :=
  match s.files.handle task fd with
  | none => some { s with files := s.files.returns task (-1) }
  | some address =>
    (s.files.files address).map fun file =>
      let (position, file) := vfsLseek64 file offset whence
      { s with files := (s.files.setFile address (some file)).returns task position }

/-- What a call returns for a vnode. -/
def code : Outcome → ℤ
  | .found _ => 0
  | .error code => code

/-- `sys_mkdir`. -/
def sysMkdir (s : FileSystem) (task fuel : ℕ) (pathname behind : List UInt8)
    (grants : Grants) : Option FileSystem :=
  (vfsMkdir s.files.heap fuel (s.files.base task) pathname behind grants).map fun (outcome, heap) =>
    { s with files := { s.files with heap }.returns task (code outcome) }

/-- `sys_mount`. -/
def sysMount (s : FileSystem) (task fuel : ℕ) (target filesystem : List UInt8)
    (cpio : List CpioFile) (grants : Grants) :
    Option FileSystem :=
  (vfsMount s.files.heap fuel (s.files.base task) target filesystem cpio grants).map
    fun (code, heap) =>
    { s with files := { s.files with heap }.returns task code }

/-- `sys_chdir`, of a task with a working directory. -/
def sysChdir (s : FileSystem) (task fuel : ℕ) (pathname : List UInt8) : Option FileSystem :=
  (s.files.cwd task).bind fun cwd =>
    (vfsChdir s.files.heap.toVfs fuel cwd pathname).map fun (code, cwd) =>
      { s with files :=
        { s.files with cwd := Function.update s.files.cwd task (some cwd) }.returns task code }

inductive Event where
  | files (event : OpenFiles.Event)
  | sysRead (task : ℕ) (fd : BitVec 32) (len : BitVec 64) (received : List UInt8)
  | sysWrite (task : ℕ) (fd : BitVec 32) (buf : ℕ → UInt8) (len : BitVec 64)
  | sysLseek64 (task : ℕ) (fd : BitVec 32) (offset : BitVec 64) (whence : ℤ)
  | sysMkdir (task fuel : ℕ) (pathname behind : List UInt8) (grants : Grants)
  | sysMount (task fuel : ℕ) (target filesystem : List UInt8)
      (cpio : List CpioFile) (grants : Grants)
  | sysChdir (task fuel : ℕ) (pathname : List UInt8)

/-- One step, in the states in which it can be taken. -/
def step (s : FileSystem) : Event → Option FileSystem
  | .files event => (s.files.step event).map fun files => { s with files }
  | .sysRead task fd len received =>
    if s.files.Ready task then s.sysRead task fd len received else none
  | .sysWrite task fd buf len => if s.files.Ready task then s.sysWrite task fd buf len else none
  | .sysLseek64 task fd offset whence =>
    if s.files.Ready task then s.sysLseek64 task fd offset whence else none
  | .sysMkdir task fuel pathname behind grants =>
    if s.files.Ready task then s.sysMkdir task fuel pathname behind grants else none
  | .sysMount task fuel target filesystem cpio grants =>
    if s.files.Ready task then s.sysMount task fuel target filesystem cpio grants else none
  | .sysChdir task fuel pathname =>
    if s.files.Ready task then s.sysChdir task fuel pathname else none

/-- `start_kernel` up to the first `vfs_mkdir`. -/
def boot (memory : Vfs) (threads : Finset ℕ) (frame : ℕ → UInt8) : FileSystem where
  files := OpenFiles.boot (bootVfs memory) threads
  frame
  buffer _ := []

end FileSystem

end OscKernel.Model
