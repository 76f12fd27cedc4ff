import OscKernel.Model.Paging

/-! # Trap frames of signal handlers

`check_pending_signals` and `sys_sigreturn` with the memory they copy. The kernel reaches a byte of
RAM at its address in the linear map. A trap frame is the `struct pt_regs` of a task at its last
trap; the program it belongs to may leave any values there when it traps again.
-/

namespace OscKernel.Model

open OscKernel.Lib

/-! ## Memory in the linear map -/

namespace Vm

/-- The byte at an address of the linear map. -/
def byteAt (s : Vm) (va : Word) : BitVec 8 :=
  s.ram (virtToPhys va &&& ~~~4095#64) ⟨(virtToPhys va).toNat % 4096, Nat.mod_lt _ (by decide)⟩

/-- Writes the bytes from an address on. -/
def fill (s : Vm) (va : Word) (length : ℕ) (value : ℕ → BitVec 8) : Vm := { s with
  ram := fun page offset =>
    let i := (physToVirt page + BitVec.ofNat 64 offset - va).toNat
    if i < length then value i else s.ram page offset }

def memzero (s : Vm) (va : Word) (length : ℕ) : Vm := s.fill va length fun _ => 0#8

/-- `struct pt_regs`, its fields in their order. -/
abbrev PtRegs := Fin 35 → Word

namespace PtRegs

def ra : Fin 35 := 0
def sp : Fin 35 := 1
def epc : Fin 35 := 31
def sstatus : Fin 35 := 32

end PtRegs

/-- `memcpy` of a `struct pt_regs` to an address. -/
def storeRegs (s : Vm) (va : Word) (regs : PtRegs) : Vm :=
  s.fill va sizeofPtRegs fun k => byte (regs (Fin.ofNat 35 (k / 8))) (k % 8)

/-- `memcpy` of a `struct pt_regs` from an address. -/
def loadRegs (s : Vm) (va : Word) : PtRegs := fun j =>
  ofBytes 64 (fun i => s.byteAt (va + BitVec.ofNat 64 (8 * j + i))) 8

/-- The instructions `li a7, 11` and `ecall` at the start of a signal stack. -/
def trampoline : Word := 0x0000007300b00893#64

end Vm

/-! ## Delivery and return -/

/-- The state of paging.c and its callers, with the trap frame of every task. -/
structure Processes where
  vm : Vm
  regs : ℕ → Vm.PtRegs

namespace Processes

open Vm

/-- The three assignments that make the trap frame enter a handler. -/
def enterHandler (regs : Vm.PtRegs) (handler : Word) : Vm.PtRegs :=
  Function.update
    (Function.update (Function.update regs Vm.PtRegs.epc handler) Vm.PtRegs.ra 0x50000000#64)
    Vm.PtRegs.sp (0x50000000#64 + stackSize)

/-- `check_pending_signals`; the mapping writes none of the pages that are written here. -/
def checkPendingSignals (s : Processes) (task : ℕ) (pages : SignalPages) : Option Processes :=
  if s.vm.pending task && s.vm.sigHandler task ≠ 0#64 then do
    let vm ← s.vm.checkPendingSignals task pages
    let vm := vm.storeRegs pages.savedRegs (s.regs task)
    let vm := vm.memzero pages.signalStack stackSize.toNat
    let vm := vm.fill pages.signalStack 8 (byte trampoline)
    some ⟨vm, Function.update s.regs task (enterHandler (s.regs task) (s.vm.sigHandler task))⟩
  else some s

/-- The end of `do_trap`: signals are handled only on the way back to user mode. -/
def doTrapEnd (s : Processes) (task : ℕ) (pages : SignalPages) : Option Processes :=
  if s.regs task Vm.PtRegs.sstatus &&& (1#64 <<< 8) = 0#64 then s.checkPendingSignals task pages
  else some s

/-- `sys_sigreturn`. -/
def sysSigreturn (s : Processes) (task : ℕ) : Processes where
  vm := s.vm.sysSigreturn task
  regs :=
    if s.vm.savedRegs task ≠ 0#64 then
      Function.update s.regs task (s.vm.loadRegs (s.vm.savedRegs task))
    else s.regs

end Processes

end OscKernel.Model
