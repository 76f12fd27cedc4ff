import OscKernel.Model.Cpio
import OscKernel.Model.PageFault
import OscKernel.Model.SignalDelivery

/-! # Replacing the program of a process

`do_exec` of main.c and `sys_exec`, on the fields of `task_struct` that a program leaves behind: its
regions, its 32 handlers and pending signals, the saved trap frame and the signal stack. The signals
of `Vm`, which has one number only, are not used. The archive is read through the linear map.
-/

namespace OscKernel.Model

open OscKernel.Lib

/-- What a program leaves behind in its `task_struct`. -/
structure UserImage where
  regions : UserRegions
  userStack : Word
  signals : SignalTask
  signalStack : Word

/-- The bytes that the kernel reads at its addresses. -/
def Vm.bytes (s : Vm) : ByteMemory := fun a => UInt8.ofBitVec (s.byteAt a)

def Vm.PtRegs.tp : Fin 35 := ⟨3, by decide⟩

/-- The trap frame that `do_exec` fills in, from the address of the task and `sstatus`. -/
def execRegs (task sstatus : Word) : Vm.PtRegs :=
  let regs : Vm.PtRegs := fun _ => 0#64
  let regs := Function.update regs Vm.PtRegs.tp task
  let regs := Function.update regs Vm.PtRegs.epc 0#64
  let regs := Function.update regs Vm.PtRegs.sp (userStack + stackSize)
  let sstatus := sstatus &&& ~~~(1#64 <<< 8)
  let sstatus := sstatus ||| (1#64 <<< 5)
  Function.update regs Vm.PtRegs.sstatus sstatus

private theorem cpioFindFile_size {memory : ByteMemory} {filename : List UInt8} {fuel : ℕ}
    {p codeStart size : Word}
    (found : cpioFindFile memory filename fuel p = some (some (codeStart, size))) :
    size.toNat < 2 ^ 32 := by
  induction fuel generalizing p with
  | zero => cases found
  | succ fuel ih =>
    rw [cpioFindFile] at found
    dsimp only at found
    split_ifs at found
    · cases found
    · cases found
    · obtain ⟨-, rfl⟩ := Prod.mk.inj (Option.some.inj (Option.some.inj found))
      rw [BitVec.toNat_setWidth]
      exact lt_of_le_of_lt (Nat.mod_le _ _) (BitVec.isLt _)
    · exact ih found

/-- The size of a file has 32 bits. -/
theorem cpioGetFile_size {memory : ByteMemory} {cpioBase codeStart size : Word}
    {filename : List UInt8} {fuel : ℕ}
    (found : cpioGetFile memory cpioBase filename fuel = some (some (codeStart, size))) :
    size.toNat < 2 ^ 32 := by
  rw [cpioGetFile] at found
  split at found
  · cases found
  · exact cpioFindFile_size found

/-- `do_exec`, with its result; the scan of the archive gives nothing where it runs out of fuel. -/
def doExec (s : Vm) (task : ℕ) (curr : UserImage) (cpioBase : Word) (filename : List UInt8)
    (taskVa sstatus : Word) (fuel : ℕ) : Option (ℤ × Vm × UserImage) :=
  match found : cpioGetFile s.bytes cpioBase filename fuel with
  | none => none
  | some none => some (-1, s, curr)
  | some (some (codeStart, size)) => some (0, s.clearUserSpaceMappings task, { curr with
      regions := curr.regions.load codeStart size (cpioGetFile_size found)
      userStack := 0#64
      signals := { curr.signals with regs := execRegs taskVa sstatus } })

/-- `sys_exec`. -/
def sysExec (s : Vm) (task : ℕ) (curr : UserImage) (cpioBase : Word) (filename : List UInt8)
    (taskVa sstatus : Word) (fuel : ℕ) : Option (ℤ × Vm × UserImage) :=
  (doExec s task curr cpioBase filename taskVa sstatus fuel).map fun (ret, s, curr) =>
    (if ret < 0 then -1 else 0, s, curr)

end OscKernel.Model
