import OscKernel.Lib.Dialogues
import OscKernel.Model.Printf

/-! # Loading a kernel over the serial line

bootloader.c with its uart.c, which polls the port, and the host's transmit_kernel.py, for the
board. The bootloader is a program that reads and writes bytes and stores them; it ends with the
address that it jumps to. `char` is unsigned. The printing functions are those of the kernel, with
the bytes written by polling. Memory is what lies below the registers of the port: what a larger
kernel stores over them is not modelled.
-/

namespace OscKernel.Model.Bootloader

open OscKernel.Lib

/-- `KERNEL_BASE`. -/
def kernelBase : Word := 0x20000000#64
/-- `UART_BASE`. -/
def uartBase : ℕ := 0xD4017000

abbrev Memory := Word → BitVec 8

abbrev Polling (α : Type) := Dialogue (BitVec 8) (BitVec 8) Memory α

def uartGetcRaw : Polling (BitVec 8) := .read .done

def uartGetc : Polling (BitVec 8) := do
  let c ← uartGetcRaw
  return if c = carriageReturn then newline else c

/-- `uart_puts`, each character by `uart_putc`. -/
def uartPuts (text : List (BitVec 8)) : Polling Unit := Dialogue.writeAll (putsBytes text)

def store (address : Word) (c : BitVec 8) : Polling Unit :=
  .update (fun memory => Function.update memory address c) (.done ())

/-- The loop that fills `magic`. -/
def magicLoop : ℕ → Polling (List (BitVec 8))
  | 0 => return []
  | left + 1 => do
    let c ← uartGetcRaw
    let rest ← magicLoop left
    return c :: rest

/-- The loop that reads `kernel_size` from its byte `i` on. -/
def sizeLoop (kernelSize : Word) (i : ℕ) : ℕ → Polling Word
  | 0 => return kernelSize
  | left + 1 => do
    let c ← uartGetcRaw
    sizeLoop (kernelSize ||| ((c.setWidth 32 <<< (i * 8)).setWidth 64)) (i + 1) left

/-- The loop that reads the kernel from its byte `i` on. -/
def loadLoop (i : ℕ) : ℕ → Polling Unit
  | 0 => return ()
  | left + 1 => do
    let c ← uartGetcRaw
    store (kernelBase + BitVec.ofNat 64 i) c
    loadLoop (i + 1) left

/-- `uart_bootloader`. `uart_decimal` always finds room for its digits. -/
def uartBootloader : Polling Word := do
  let magic ← magicLoop 4
  if magic ≠ literal "BOOT" then
    uartPuts (literal "Magic failed!\n")
    .halt
  else
    uartPuts (literal "Magic good!\n")
    let kernelSize ← sizeLoop 0#64 0 4
    uartPuts (literal "Kernel size: ")
    uartPuts ((uartDecimal kernelSize).getD [])
    uartPuts (literal "\n")
    loadLoop 0 kernelSize.toNat
    let _ ← uartGetc
    uartPuts (literal "Kernel loaded. Jumping...\n")
    uartPuts (literal "Kernel address: ")
    uartPuts (uartHex kernelBase)
    uartPuts (literal "\n")
    return kernelBase

/-! ## The host -/

/-- `struct.pack('<I', n)`, which fails for a number that has more than 32 bits. -/
def pack (n : ℕ) : Option (List (BitVec 8)) :=
  if n < 2 ^ 32 then some ((List.range 4).map fun i => BitVec.ofNat 8 (n / 256 ^ i)) else none

/-- What transmit_kernel.py writes. -/
def transmitKernel (kernelData : List (BitVec 8)) : Option (List (BitVec 8)) := do
  let magic ← pack 0x544F4F42
  let size ← pack kernelData.length
  return magic ++ size ++ kernelData

end OscKernel.Model.Bootloader
