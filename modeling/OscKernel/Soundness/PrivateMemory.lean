import OscKernel.Lib.System
import OscKernel.Soundness.PopulatedPages

/-! # PrivateProcesses with memory of their own

What virtual memory is for. A process of `PrivateProcesses` has all of its memory from the start:
the program, and zeros in the stack and in the regions it maps. It shares nothing, no access needs
the kernel's help, and a fork copies everything at once. The two things that depend on what was
accessed before are left open: whether a region that may be written can be read, and what is allowed
behind the end of the code in its last page.
-/

namespace OscKernel.Soundness.PrivateMemory

open OscKernel.Lib OscKernel.Model OscKernel.Soundness.UserMappings
open OscKernel.Soundness.PopulatedPages (WriteOnlyLoad)

/-! ## Permissions -/

section Permissions

variable (vmas : List VmArea) (codeSize va : Word) (cause : FaultCause)

/-- The access succeeds. -/
def Allowed : Prop :=
  match vmas.find? (·.contains va) with
  | some vma => cause.allowedBy vma.prot = true
  | none => InStack va ∧ cause ≠ .fetch ∨ va < codeSize ∧ cause ≠ .store

/-- Some access of this kind to the page may succeed. -/
def Granted : Prop :=
  match vmas.find? (·.contains (pageVa va)) with
  | some vma => cause.allowedBy vma.prot = true ∨ WriteOnlyLoad vma.prot cause
  | none => InStack (pageVa va) ∧ cause ≠ .fetch ∨ pageVa va < codeSize ∧ cause ≠ .store

end Permissions

/-! ## PrivateProcesses -/

/-- A file that can be executed. -/
structure Program where
  size : Word
  size_lt : size.toNat < 2 ^ 32
  byte : Word → BitVec 8

/-- The memory of a process that executes it, before the first store. -/
def Program.image (program : Program) (va : Word) : BitVec 8 :=
  if va < program.size then program.byte va
  else 0#8

structure Process where
  vmas : List VmArea
  codeSize : Word
  byte : Word → BitVec 8

namespace Process

def start (program : Program) : Process := ⟨[], program.size, program.image⟩

/-- The regions of the old program stay, with zeros in them. -/
def exec (p : Process) (program : Program) : Process := ⟨p.vmas, program.size, program.image⟩

def store (p : Process) (va : Word) (value : BitVec 8) : Process :=
  { p with byte := Function.update p.byte va value }

@[simp] theorem byte_store (p : Process) (va : Word) (value : BitVec 8) :
    (p.store va value).byte = Function.update p.byte va value := rfl

end Process

structure PrivateProcesses where
  live : Finset ℕ
  process : ℕ → Process

/-- What processes do and see. -/
inductive Action where
  | start (task : ℕ) (program : Program)
  | exec (task : ℕ) (program : Program)
  | fork (parent child : ℕ)
  /-- `sys_mmap`, with the regions afterwards. -/
  | map (task : ℕ) (vmas : List VmArea)
  /-- A fetch or a load, with the byte it returns. -/
  | read (task : ℕ) (va : Word) (cause : FaultCause) (byte : BitVec 8)
  | store (task : ℕ) (va : Word) (value : BitVec 8)
  /-- The access ends the process. -/
  | killed (task : ℕ) (va : Word) (cause : FaultCause)
  | exit (task : ℕ)

namespace PrivateProcesses

def set (p : PrivateProcesses) (task : ℕ) (process : Process) : PrivateProcesses :=
  { p with process := Function.update p.process task process }

def add (p : PrivateProcesses) (task : ℕ) (process : Process) : PrivateProcesses :=
  ⟨insert task p.live, Function.update p.process task process⟩

inductive Step (p : PrivateProcesses) : Action → PrivateProcesses → Prop
  | start {task : ℕ} {program : Program} (fresh : task ∉ p.live) : Step p (.start task program)
      (p.add task (.start program))
  | exec {task : ℕ} {program : Program} (live : task ∈ p.live) :
      Step p (.exec task program) (p.set task ((p.process task).exec program))
  | fork {parent child : ℕ} (live : parent ∈ p.live) (fresh : child ∉ p.live) :
      Step p (.fork parent child) (p.add child (p.process parent))
  | map {task : ℕ} {vmas : List VmArea} (live : task ∈ p.live)
      (more : (p.process task).vmas <+: vmas) :
      Step p (.map task vmas) (p.set task { p.process task with vmas := vmas })
  | read {task : ℕ} {va : Word} {cause : FaultCause} (live : task ∈ p.live) (reads : cause ≠ .store)
      (granted : Granted (p.process task).vmas (p.process task).codeSize va cause) :
      Step p (.read task va cause ((p.process task).byte va)) p
  | store {task : ℕ} {va : Word} {value : BitVec 8} (live : task ∈ p.live)
      (granted : Granted (p.process task).vmas (p.process task).codeSize va .store) :
      Step p (.store task va value) (p.set task ((p.process task).store va value))
  | killed {task : ℕ} {va : Word} {cause : FaultCause} (live : task ∈ p.live)
      (refused : ¬ Allowed (p.process task).vmas (p.process task).codeSize va cause) :
      Step p (.killed task va cause) p
  | exit {task : ℕ} (live : task ∈ p.live) :
      Step p (.exit task) { p with live := p.live.erase task }

def transitions : System PrivateProcesses Action := ⟨Step⟩

/-- No process has been created. -/
def none : PrivateProcesses := ⟨∅, fun _ => ⟨[], 0#64, fun _ => 0#8⟩⟩

end PrivateProcesses

end OscKernel.Soundness.PrivateMemory
